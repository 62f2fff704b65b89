import Lox.Program.Parse
import Lox.Proofs.Endings

/-!
# Single steps of the parser

What the parser does with one token: when it reads it, and what it leaves.
-/

namespace Lox

namespace Kind

@[simp] theorem alike_symbol {k : Kind} {s : Symbol} : k.alike (.symbol s) = true ↔ k = .symbol s := by
  cases k <;> simp [alike]

@[simp] theorem alike_keyword {k : Kind} {w : Keyword} :
    k.alike (.keyword w) = true ↔ k = .keyword w := by
  cases k <;> simp [alike]

@[simp] theorem alike_identifier {k : Kind} : k.alike .identifier = true ↔ k = .identifier := by
  cases k <;> simp [alike]

@[simp] theorem alike_eof {k : Kind} : k.alike .eof = true ↔ k = .eof := by
  cases k <;> simp [alike]

end Kind

namespace Parse
open Ending

/-- Whether there is a next token and it satisfies `p`. -/
def nextIs (p : Kind → Bool) : List Token → Bool
  | [] => false
  | t :: _ => p t.kind

@[simp] theorem nextIs_nil (p : Kind → Bool) : nextIs p [] = false := rfl

@[simp] theorem nextIs_cons (p : Kind → Bool) (t : Token) (ts : List Token) :
    nextIs p (t :: ts) = p t.kind := rfl

variable {s s' : State}

/-! ## What a step was -/

theorem readIf_eq_ok {p : Kind → Bool} {o : Option Token} (h : readIf p s = .ok o s') :
    (o = none ∧ s' = s ∧ nextIs p s.rest = false) ∨
      ∃ t rest, o = some t ∧ s.rest = t :: rest ∧ p t.kind = true ∧ s' = { s with rest := rest } := by
  rw [readIf_apply] at h
  cases hs : s.rest with
  | nil =>
    rw [hs] at h
    simp only [EStateM.Result.ok.injEq] at h
    exact .inl ⟨h.1.symm, h.2.symm, rfl⟩
  | cons t rest =>
    rw [hs] at h
    by_cases hp : p t.kind = true
    · simp only [hp, if_true, EStateM.Result.ok.injEq] at h
      exact .inr ⟨t, rest, h.1.symm, rfl, hp, h.2.symm⟩
    · simp only [hp, if_false, EStateM.Result.ok.injEq, Bool.false_eq_true] at h
      exact .inl ⟨h.1.symm, h.2.symm, by simpa using hp⟩

theorem accept_eq_ok {k : Kind} {o : Option Token} (h : accept k s = .ok o s') :
    (o = none ∧ s' = s ∧ nextIs (·.alike k) s.rest = false) ∨
      ∃ t rest, o = some t ∧ s.rest = t :: rest ∧ t.kind.alike k = true ∧
        s' = { s with rest := rest } :=
  readIf_eq_ok h

theorem reject_ne_ok {α : Type} {a : α} (fault : SyntaxFault) : reject fault s ≠ .ok a s' := by
  intro h
  cases h

theorem expect_eq_ok {k : Kind} {what : Expected} {t : Token} (h : expect k what s = .ok t s') :
    ∃ rest, s.rest = t :: rest ∧ t.kind.alike k = true ∧ s' = { s with rest := rest } := by
  rw [expect, bind_eq_ok] at h
  obtain ⟨o, s₁, h₁, h⟩ := h
  rcases accept_eq_ok h₁ with ⟨rfl, rfl, -⟩ | ⟨t', rest, rfl, hr, hk, rfl⟩
  · exact absurd h (reject_ne_ok _)
  · obtain ⟨rfl, rfl⟩ := pure_eq_ok.1 h
    exact ⟨rest, hr, hk, rfl⟩

theorem semicolon_eq_ok {what : Expected} {u : Unit} (h : semicolon what s = .ok u s') :
    ∃ t rest, s.rest = t :: rest ∧ t.kind = .symbol .semicolon ∧ s' = { s with rest := rest } := by
  obtain ⟨t, ht, -⟩ := map_eq_ok.1 h
  obtain ⟨rest, hr, hk, rfl⟩ := expect_eq_ok ht
  exact ⟨t, rest, hr, by simpa using hk, rfl⟩

theorem freshId_eq_ok {id : Nat} (h : freshId s = .ok id s') :
    id = s.nextId ∧ s' = { s with nextId := s.nextId + 1 } := by
  cases h
  exact ⟨rfl, rfl⟩

theorem skip_eq_ok {u : Unit} (h : skip s = .ok u s') : s' = { s with rest := s.rest.tail } := by
  cases h
  rfl

theorem sees_apply (k : Kind) : sees k s = .ok (nextIs (·.alike k) s.rest) s := by
  show (match s.rest with
    | [] => pure false
    | t :: _ => pure (t.kind.alike k) : Parse Bool) s = _
  cases s.rest <;> rfl

theorem sees_eq_ok {k : Kind} {b : Bool} (h : sees k s = .ok b s') :
    b = nextIs (·.alike k) s.rest ∧ s' = s := by
  rw [sees_apply] at h
  cases h
  exact ⟨rfl, rfl⟩

theorem atEnd_eq_ok {b : Bool} (h : atEnd s = .ok b s') : b = s.rest.isEmpty ∧ s' = s := by
  cases h
  exact ⟨rfl, rfl⟩

theorem peek_eq_ok {t : Token} (h : peek s = .ok t s') : t = s.rest.headD s.eof ∧ s' = s := by
  cases h
  exact ⟨rfl, rfl⟩

theorem report_eq_ok {t : Token} {fault : SyntaxFault} {u : Unit} (h : report t fault s = .ok u s') :
    s' = { s with errors := s.errors ++ [.syntacticAt t fault] } := by
  cases h
  rfl

/-! ## What a step will be -/

theorem readIf_of_next {p : Kind → Bool} {t : Token} {rest : List Token} (hr : s.rest = t :: rest)
    (hp : p t.kind = true) : readIf p s = .ok (some t) { s with rest := rest } := by
  simp [readIf_apply, hr, hp]

theorem readIf_of_not_next {p : Kind → Bool} (h : nextIs p s.rest = false) :
    readIf p s = .ok none s := by
  rw [readIf_apply]
  cases hs : s.rest with
  | nil => rfl
  | cons t rest =>
    rw [hs, nextIs_cons] at h
    simp [h]

theorem accept_of_next {k : Kind} {t : Token} {rest : List Token} (hr : s.rest = t :: rest)
    (hk : t.kind = k) : accept k s = .ok (some t) { s with rest := rest } :=
  readIf_of_next hr (hk ▸ Kind.alike_refl _)

theorem accept_of_not_next {k : Kind} (h : nextIs (·.alike k) s.rest = false) :
    accept k s = .ok none s :=
  readIf_of_not_next h

theorem expect_of_next {k : Kind} {what : Expected} {t : Token} {rest : List Token}
    (hr : s.rest = t :: rest) (hk : t.kind = k) :
    expect k what s = .ok t { s with rest := rest } :=
  (bind_ok (accept_of_next hr hk)).trans rfl

theorem semicolon_of_next {what : Expected} {t : Token} {rest : List Token}
    (hr : s.rest = t :: rest) (hk : t.kind = .symbol .semicolon) :
    semicolon what s = .ok () { s with rest := rest } := by
  show EStateM.map _ (expect _ _) s = _
  simp only [EStateM.map, expect_of_next hr hk]

theorem peek_of_next {t : Token} {rest : List Token} (hr : s.rest = t :: rest) :
    peek s = .ok t s := by
  show EStateM.Result.ok (s.rest.headD s.eof) s = _
  rw [hr, List.headD_cons]

theorem skip_of_next {t : Token} {rest : List Token} (hr : s.rest = t :: rest) :
    skip s = .ok () { s with rest := rest } := by
  show EStateM.Result.ok () { s with rest := s.rest.tail } = _
  rw [hr, List.tail_cons]

theorem freshId_apply : freshId s = .ok s.nextId { s with nextId := s.nextId + 1 } := rfl

theorem atEnd_apply : atEnd s = .ok s.rest.isEmpty s := rfl

end Parse
end Lox
