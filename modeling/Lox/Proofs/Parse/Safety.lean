import Lox.Proofs.Parse.Following

/-!
# Reading a vector of tokens is safe

A parser that is at a place up to the first `eof` stays within these places, whatever rule it goes by. So it looks
for no token where there is none, and it ends as the reading of the tokens that are left does: at the first `eof`,
with each construct and each declaration on the way taking a token.
-/

namespace Lox

namespace Parser
open Ending
open Parse (State Goal program declaration ended endOf firstEof depth)

/-- The parser has the tokens before it, and its place is not past the first `eof`. -/
structure Within (tokens : List Token) (p : Parser) : Prop where
  vector : p.tokens = (ended tokens).toArray
  le : p.current ≤ firstEof tokens

variable {tokens : List Token} {p p' : Parser} {s s' : State}

theorem Tracks.within (h : Tracks tokens p s) : p.Within tokens := ⟨h.vector, h.place.le⟩

theorem Within.tracks (h : p.Within tokens) : ∃ s, Tracks tokens p s :=
  ⟨⟨((ended tokens).take (firstEof tokens)).drop p.current, endOf tokens, p.nextId, p.errors⟩,
    h.vector, ⟨h.le, rfl, Parse.getElem?_firstEof tokens⟩, rfl, rfl⟩

theorem new_tracks (tokens : List Token) (nextId : Nat) :
    Tracks tokens (new tokens nextId) (Parse.start tokens nextId) :=
  ⟨rfl, Parse.start_at tokens nextId, rfl, rfl⟩

/-! ## What agrees -/

namespace Agree

variable {α β : Type} {A : α → β → Prop} {x : EStateM.Result Halt Parser α} {y : EStateM.Result Parse.Halt State β}

theorem tracks (h : Agree tokens A x y) : Tracks tokens (state x) (state y) := by
  cases h with
  | ok _ h | halt h => exact h

theorem ne_noToken (h : Agree tokens A x y) (place : Nat) : x ≠ .error (.noToken place) p' := by
  cases h <;> simp

theorem ne_exhausted (h : Agree tokens A x y) (hy : ∀ s', y ≠ .error .exhausted s') :
    x ≠ .error (.rule .exhausted) p' := by
  rintro rfl
  cases h with
  | halt => exact hy _ rfl

theorem eq_ok {a : α} (h : Agree tokens A (.ok a p') y) : ∃ b s', y = .ok b s' ∧ A a b ∧ Tracks tokens p' s' := by
  cases h with
  | ok ha h => exact ⟨_, _, rfl, ha, h⟩

theorem ok_eq {b : β} (h : Agree tokens A x (.ok b s')) : ∃ a p', x = .ok a p' ∧ A a b ∧ Tracks tokens p' s' := by
  cases h with
  | ok ha h => exact ⟨_, _, rfl, ha, h⟩

end Agree

/-! ## The rules -/

namespace Within

variable (h : p.Within tokens)
include h

/-- No rule moves the place back or past the first `eof`, and a construct moves it forward. -/
theorem moves (goal : Goal) (n : Nat) :
    (state (goal.read n p)).Within tokens ∧ p.current ≤ (state (goal.read n p)).current ∧
      (goal.isConstruct = true → ∀ a q, goal.read n p = .ok a q → p.current < q.current) := by
  obtain ⟨s, hs⟩ := h.tracks
  have hagree := follows tokens n goal p s hs
  obtain ⟨j, hle, hj, hlt⟩ := goal.moves n hs.place
  have hplace : (state (goal.read n p)).current = j := hagree.tracks.place.unique hj
  refine ⟨hagree.tracks.within, hplace ▸ hle, fun hgoal a q ha => ?_⟩
  rw [ha] at hagree hplace
  obtain ⟨b, s', hb, -, -⟩ := hagree.eq_ok
  exact hplace ▸ hlt hgoal b s' hb

theorem ne_noToken (goal : Goal) (n place : Nat) (q : Parser) : goal.read n p ≠ .error (.noToken place) q := by
  obtain ⟨s, hs⟩ := h.tracks
  exact (follows tokens n goal p s hs).ne_noToken place

theorem ne_exhausted (goal : Goal) {n : Nat} (hn : depth tokens.length ≤ n) (q : Parser) :
    goal.read n p ≠ .error (.rule .exhausted) q := by
  obtain ⟨s, hs⟩ := h.tracks
  exact (follows tokens n goal p s hs).ne_exhausted fun _ => goal.ne_exhausted hs.place hn

theorem peek : ∃ t, p.tokens[p.current]? = some t ∧ peek p = .ok t p := by
  obtain ⟨s, hs⟩ := h.tracks
  exact ⟨_, hs.getElem?_current, hs.peek⟩

theorem previous : ∃ t, previous p = .ok t p := by
  obtain ⟨s, hs⟩ := h.tracks
  exact hs.previous

/-- Going forward by a token does not go past the first `eof`. -/
theorem advance : ∃ t q, advance p = .ok t q ∧ q.Within tokens := by
  obtain ⟨s, hs⟩ := h.tracks
  cases hr : s.rest with
  | nil =>
    obtain ⟨t, ht⟩ := hs.advance_at_end hr
    exact ⟨t, p, ht, h⟩
  | cons t rest => exact ⟨t, _, hs.advance hr, (hs.next hr).within⟩

/-- Synchronizing goes past the token at fault, if it is no `eof`. -/
theorem synchronize : ∃ q, synchronize p = .ok () q ∧ q.Within tokens ∧
    (p.current < firstEof tokens → p.current < q.current) := by
  obtain ⟨s, hs⟩ := h.tracks
  obtain ⟨q, hq, htracks⟩ := synchronize_tracks hs
  refine ⟨q, hq, htracks.within, fun hlt => ?_⟩
  have hlen := hs.place.length_rest
  have hlen' := htracks.place.length_rest
  have hshort := Parse.length_skipFault (List.ne_nil_of_length_pos (by omega) : s.rest ≠ [])
  dsimp only at hlen'
  omega

/-- There is a result of a declaration, if there is a token left. -/
theorem declaration_ok {n : Nat} (hn : depth tokens.length ≤ n) (hlt : p.current < firstEof tokens) :
    ∃ o q, declaration n p = .ok o q := by
  obtain ⟨s, hs⟩ := h.tracks
  have hlen := hs.place.length_rest
  have hle := hs.place.length_rest_le
  obtain ⟨o, s', hdecl, -⟩ := Parse.declaration_eq_ok (n := n) (s := s) (by unfold depth at hn; omega)
    hs.place.ends (List.ne_nil_of_length_pos (by omega))
  have hagree : Agree tokens Eq (declaration n p) (declaration n s) := follows tokens n .declaration p s hs
  rw [hdecl] at hagree
  obtain ⟨o, q, hq, -, -⟩ := hagree.ok_eq
  exact ⟨o, q, hq⟩

/-- A declaration moves the place forward, whether it is read or given up. -/
theorem declaration_lt {n : Nat} {o : Option Stmt} {q : Parser} (hq : declaration n p = .ok o q)
    (hlt : p.current < firstEof tokens ∨ o.isSome = true) : p.current < q.current := by
  obtain ⟨s, hs⟩ := h.tracks
  have hagree : Agree tokens Eq (declaration n p) (declaration n s) := follows tokens n .declaration p s hs
  rw [hq] at hagree
  obtain ⟨o, s', hdecl, rfl, htracks⟩ := hagree.eq_ok
  obtain ⟨j, hj, hat⟩ := hs.place.declaration hlt hdecl
  exact htracks.place.unique hat ▸ hj

end Within

/-- The vector is read as the tokens before its first `eof` are. -/
theorem program_follows (tokens : List Token) (nextId : Nat) :
    ∃ stmts p, p.Within tokens ∧ p.current = firstEof tokens ∧
      (∀ n, depth tokens.length ≤ n → program n (new tokens nextId) = .ok stmts p) ∧
      Stmt.parse tokens nextId = (if p.errors.isEmpty then .ok stmts else .error p.errors, p.nextId) := by
  obtain ⟨stmts, s, hs, hparse⟩ := Stmt.parse_eq tokens nextId
  have hresult : ∀ n, depth tokens.length ≤ n → ∃ p, program n (new tokens nextId) = .ok stmts p ∧
      Tracks tokens p s := by
    intro n hn
    have hagree : Agree tokens Eq (program n (new tokens nextId)) (program n (Parse.start tokens nextId)) :=
      follows tokens n .program _ _ (new_tracks tokens nextId)
    rw [show program n (Parse.start tokens nextId) = _ from (Goal.program.extend hn).eq_ok hs] at hagree
    obtain ⟨a, p, hp, rfl, htracks⟩ := hagree.ok_eq
    exact ⟨p, hp, htracks⟩
  obtain ⟨p, hp, htracks⟩ := hresult _ (Nat.le_refl _)
  have hend : p.current = firstEof tokens := htracks.place.unique ((Parse.start_at tokens nextId).program hs)
  refine ⟨stmts, p, htracks.within, hend, fun n hn => ?_, ?_⟩
  · obtain ⟨q, hq, hq'⟩ := hresult n hn
    rw [hq, htracks.unique hq']
  · rw [hparse, htracks.errors, htracks.nextId]

theorem parse_eq (tokens : List Token) (nextId : Nat) : parse tokens nextId = .ok (Stmt.parse tokens nextId) := by
  obtain ⟨stmts, p, -, -, hprogram, hparse⟩ := program_follows tokens nextId
  rw [parse, hprogram _ (Nat.le_refl _), hparse]

/-- Any tokens are read safely. There is a result, which does not depend on the bound from `depth` on, and the parser
is then at the first `eof`, which is a place in the vector. It starts within the places up to there. From each of them
there is a token to look at and one before it, and going forward and synchronizing stay within them. So does every
rule: none looks for a token where there is none, moves back, or meets the bound that `depth` gives. A construct that
is read moves the place forward, and before the first `eof` so does a declaration, read or given up. -/
theorem parse_progress (tokens : List Token) (nextId : Nat) :
    (∃ stmts p, p.Within tokens ∧ p.current = firstEof tokens ∧
      (∀ n, depth tokens.length ≤ n → program n (new tokens nextId) = .ok stmts p) ∧
      parse tokens nextId = .ok (if p.errors.isEmpty then .ok stmts else .error p.errors, p.nextId)) ∧
    (new tokens nextId).Within tokens ∧ firstEof tokens < (new tokens nextId).tokens.size ∧
    ∀ p : Parser, p.Within tokens →
      ((∃ t, p.tokens[p.current]? = some t ∧ peek p = .ok t p) ∧ ∃ t, previous p = .ok t p) ∧
      (∃ t q, advance p = .ok t q ∧ q.Within tokens) ∧
      (∃ q, synchronize p = .ok () q ∧ q.Within tokens ∧ (p.current < firstEof tokens → p.current < q.current)) ∧
      (∀ (goal : Goal) (n : Nat),
        ((state (goal.read n p)).Within tokens ∧ p.current ≤ (state (goal.read n p)).current ∧
          (goal.isConstruct = true → ∀ a q, goal.read n p = .ok a q → p.current < q.current)) ∧
        (∀ place q, goal.read n p ≠ .error (.noToken place) q) ∧
        (depth tokens.length ≤ n → ∀ q, goal.read n p ≠ .error (.rule .exhausted) q)) ∧
      ∀ n, (depth tokens.length ≤ n → p.current < firstEof tokens → ∃ o q, declaration n p = .ok o q) ∧
        ∀ o q, declaration n p = .ok o q → p.current < firstEof tokens ∨ o.isSome = true → p.current < q.current := by
  obtain ⟨stmts, p, hwithin, hplace, hprogram, hparse⟩ := program_follows tokens nextId
  refine ⟨⟨stmts, p, hwithin, hplace, hprogram, by rw [parse_eq, hparse]⟩, (new_tracks tokens nextId).within, ?_,
    fun p h => ⟨⟨h.peek, h.previous⟩, h.advance, h.synchronize, fun goal n => ⟨h.moves goal n, h.ne_noToken goal n,
      fun hn => h.ne_exhausted goal hn⟩, fun n => ⟨h.declaration_ok, fun o q => h.declaration_lt⟩⟩⟩
  exact (Parse.firstEof_lt tokens).trans_eq List.size_toArray.symm

/-- Tokens with an `eof` in the middle and none at the end: `) eof print`. -/
def strayEof : List Token :=
  [⟨.symbol .rightParen, ")", 1⟩, ⟨.eof, "", 1⟩, ⟨.keyword .printKw, "print", 2⟩]

theorem parse_progress_strayEof :
    (new strayEof 0).Within strayEof ∧ firstEof strayEof = 1 ∧ (new strayEof 0).tokens.size = 4 ∧
      ∃ o q, declaration (depth strayEof.length) (new strayEof 0) = .ok o q ∧ q.current = firstEof strayEof := by
  obtain ⟨-, hwithin, -, hplaces⟩ := parse_progress strayEof 0
  obtain ⟨-, -, -, hrules, hdecl⟩ := hplaces _ hwithin
  obtain ⟨hok, hforward⟩ := hdecl (depth strayEof.length)
  have hone : firstEof strayEof = 1 := by decide
  obtain ⟨o, q, hq⟩ := hok (Nat.le_refl _) (by rw [hone]; decide)
  have hlt : 0 < q.current := hforward o q hq (.inl (by rw [hone]; decide))
  obtain ⟨⟨hend, -, -⟩, -, -⟩ := hrules .declaration (depth strayEof.length)
  have hle : q.current ≤ firstEof strayEof := by
    change Within strayEof (state (declaration _ _)) at hend
    rw [hq] at hend
    exact hend.le
  exact ⟨hwithin, hone, by decide, o, q, hq, by omega⟩

end Parser
end Lox
