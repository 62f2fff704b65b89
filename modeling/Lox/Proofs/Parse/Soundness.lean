import Lox.Proofs.Parse.ExpressionSoundness

/-!
# Programs read without a fault are in the grammar

The statements are like the expressions, but for two things: a declaration recovers from its faults,
which shows in the errors alone, and a statement takes every `else` that follows it and that it can
take.
-/

namespace Lox
namespace Parse
open Ending Grammar

/-- Like `Reads`, the token `kw` having been read before. -/
structure ReadsAfter (kw : Token) (r : Rule) (s s' : State) (t : r.Tree) : Prop where
  derives : ∃ ts, s.rest = ts ++ s'.rest ∧ Derives true r (kw :: ts) t
  fresh : Fresh s.nextId s'.nextId (r.nodes t)

def SoundAfter (k : Kind) (r : Rule) (p : Parse r.Tree) : Prop :=
  ∀ ⦃kw : Token⦄, kw.kind = k → ∀ ⦃s s' : State⦄ ⦃t : r.Tree⦄, p s = .ok t s' → s.Ends →
    s'.errors.length = s.errors.length → ReadsAfter kw r s s' t

/-- No `else` follows a statement that could take it. -/
structure ReadsStatement (pre : List Token) (s s' : State) (t : Stmt) : Prop where
  derives : ∃ b ts, s.rest = ts ++ s'.rest ∧ Derives true (.statement b) (pre ++ ts) t ∧
    (b = true → nextIs (·.alike (.keyword .elseKw)) s'.rest = false)
  fresh : Fresh s.nextId s'.nextId t.nodes

def SoundStatement (p : Parse Stmt) : Prop :=
  ∀ ⦃s s' : State⦄ ⦃t : Stmt⦄, p s = .ok t s' → s.Ends → s'.errors.length = s.errors.length →
    ReadsStatement [] s s' t

/-- What `p` reads after `first` is a statement with it. -/
def SoundStatementAfter (first : Token) (p : Parse Stmt) : Prop :=
  ∀ ⦃s s' : State⦄ ⦃t : Stmt⦄, p s = .ok t s' → s.Ends → s'.errors.length = s.errors.length →
    ReadsStatement [first] s s' t

/-- A declaration without a fault is there. -/
def SoundDeclaration (p : Parse (Option Stmt)) : Prop :=
  ∀ ⦃s s' : State⦄ ⦃o : Option Stmt⦄, p s = .ok o s' → s.Ends →
    s'.errors.length = s.errors.length → ∃ d, o = some d ∧ Reads .declaration s s' d

/-- The declarations of a block, and the brace after them. -/
def SoundBlock (p : Parse (List Stmt)) : Prop :=
  ∀ ⦃s s' : State⦄ ⦃body : List Stmt⦄, p s = .ok body s' → s.Ends →
    s'.errors.length = s.errors.length →
    (∃ ts rb, s.rest = ts ++ rb :: s'.rest ∧ rb.kind = .symbol .rightBrace ∧
      Derives true .declarations ts body) ∧
    Fresh s.nextId s'.nextId (Stmt.nodesAll body)

theorem expressionUnless_sound {n : Nat} {k : Kind} {s s' : State} {o : Option Expr}
    (h : expressionUnless n k s = .ok o s') (hs : s.Ends)
    (he : s'.errors.length = s.errors.length) : Reads .optional s s' o := by
  rw [expressionUnless, bind_eq_ok] at h
  obtain ⟨b, s₁, h₁, h⟩ := h
  obtain ⟨rfl, rfl⟩ := sees_eq_ok h₁
  split at h
  · obtain ⟨rfl, rfl⟩ := pure_eq_ok.1 h
    exact ⟨⟨[], rfl, .absent⟩, .nil _ _⟩
  · simp only [bind_eq_ok, pure_eq_ok] at h
    obtain ⟨e, s₂, h₂, rfl, rfl⟩ := h
    obtain ⟨⟨ts, hts, hd⟩, hf⟩ := Sound.expression n h₂ hs he
    exact ⟨⟨ts, hts, .present hd⟩, hf⟩

theorem varDeclaration_sound (n : Nat) :
    SoundAfter (.keyword .varKw) .varDecl (varDeclaration n) := by
  intro kw hkw s s' t h hs he
  rw [varDeclaration, bind_eq_ok] at h
  obtain ⟨name, s₁, h₁, h⟩ := h
  obtain ⟨rest₁, hr₁, hn, rfl⟩ := expect_eq_ok h₁
  rw [bind_eq_ok] at h
  obtain ⟨o, s₂, h₂, h⟩ := h
  simp only [Kind.alike_identifier] at hn
  rcases accept_eq_ok h₂ with ⟨rfl, rfl, -⟩ | ⟨eq, rest₂, rfl, hr₂, hk, rfl⟩
  · simp only [bind_eq_ok, pure_eq_ok] at h
    obtain ⟨o, s₃, ⟨rfl, rfl⟩, u, s₄, h₄, rfl, rfl⟩ := h
    obtain ⟨semi, rest₃, hr₃, hsemi, rfl⟩ := semicolon_eq_ok h₄
    refine ⟨⟨[name, semi], ?_, .varDecl hkw hn hsemi⟩, .nil _ _⟩
    simpa [hr₁] using hr₃
  · simp only [bind_eq_ok, map_eq_ok, pure_eq_ok] at h
    obtain ⟨o, s₃, ⟨e, h₃, rfl⟩, u, s₄, h₄, rfl, rfl⟩ := h
    obtain ⟨semi, rest₃, hr₃, hsemi, rfl⟩ := semicolon_eq_ok h₄
    obtain ⟨⟨ts, hts, hd⟩, hf⟩ := Sound.expression n h₃ hs he
    refine ⟨⟨name :: eq :: (ts ++ [semi]), ?_, .varInit hkw hn (by simpa using hk) hd hsemi⟩, hf⟩
    simp only at hr₂ hts
    simp [hr₁, hr₂, hts, hr₃]

theorem expressionStatement_sound (n : Nat) : Sound .exprStmt (expressionStatement n) := by
  intro s s' t h hs he
  simp only [expressionStatement, bind_eq_ok, pure_eq_ok] at h
  obtain ⟨e, s₁, h₁, u, s₂, h₂, rfl, rfl⟩ := h
  obtain ⟨semi, rest, hr, hsemi, rfl⟩ := semicolon_eq_ok h₂
  obtain ⟨⟨ts, hts, hd⟩, hf⟩ := Sound.expression n h₁ hs he
  exact ⟨⟨ts ++ [semi], by simp [hts, hr], .exprStmt hd hsemi⟩, hf⟩

theorem parameters_sound {n count : Nat} {s s' : State} {names : List Token}
    (h : parameters n count s = .ok names s') (he : s'.errors.length = s.errors.length) :
    (∃ ts, s.rest = ts ++ s'.rest ∧ Names ts names) ∧ count + names.length ≤ maxArity ∧
      s'.nextId = s.nextId ∧ s'.eof = s.eof := by
  induction n generalizing count s s' names with
  | zero => cases h
  | succ n ih =>
    rw [parameters] at h
    have hcount : ¬maxArity ≤ count := by
      intro hc
      simp only [hc, if_true] at h
      have := Grows.length_lt_of_report (Grows.parameters_tail _) h
      omega
    simp only [hcount, if_false, bind_eq_ok] at h
    obtain ⟨first, s₁, h₁, o, s₂, h₂, h⟩ := h
    obtain ⟨rest, hr, hn, rfl⟩ := expect_eq_ok h₁
    simp only [Kind.alike_identifier] at hn
    rcases accept_eq_ok h₂ with ⟨rfl, rfl, -⟩ | ⟨comma, rest₂, rfl, hr₂, hk, rfl⟩
    · obtain ⟨rfl, rfl⟩ := pure_eq_ok.1 h
      refine ⟨⟨[first], by simp [hr], .one hn⟩, ?_, rfl, rfl⟩
      simp only [List.length_singleton]
      omega
    · simp only [bind_eq_ok, pure_eq_ok] at h
      obtain ⟨names, s₃, h₃, rfl, rfl⟩ := h
      obtain ⟨⟨ts, hts, hd⟩, hlen, hid, heof⟩ := ih h₃ he
      refine ⟨⟨first :: comma :: ts, ?_, .more hn (by simpa using hk) hd⟩, ?_, hid, heof⟩
      · simp only at hr₂ hts
        simp [hr, hr₂, hts]
      · simp only [List.length_cons]
        omega

structure StatementsSound (n : Nat) : Prop where
  declaration : SoundDeclaration (declaration n)
  classDeclaration : SoundAfter (.keyword .classKw) .declaration (classDeclaration n)
  methods : Sound .methods (methods n)
  routine (kind : RoutineKind) : Sound .function (routine n kind)
  block : SoundBlock (block n)
  statement : SoundStatement (statement n)
  forStatement {kw : Token} : kw.kind = .keyword .forKw → SoundStatementAfter kw (forStatement n)
  ifStatement {kw : Token} : kw.kind = .keyword .ifKw → SoundStatementAfter kw (ifStatement n)

/-- A fault that is recovered from is an error more. -/
theorem recovering_eq_ok {α : Type} {p : Parse α} (hp : Grows p) {s s' : State} {o : Option α}
    (h : recovering p s = .ok o s') (he : s'.errors.length = s.errors.length) :
    ∃ a, o = some a ∧ p s = .ok a s' := by
  have hl := hp s
  rw [recovering_apply] at h
  cases hps : p s with
  | ok a s₁ =>
    rw [hps] at h
    cases h
    exact ⟨a, rfl, rfl⟩
  | error halt s₁ =>
    rw [hps] at h hl
    cases halt with
    | exhausted => cases h
    | reject e =>
      cases h
      have := hl.length_le
      simp only [state_error, List.length_append, List.length_singleton] at he this
      omega

namespace StatementsSound

variable {n : Nat}

theorem next_declaration (ih : StatementsSound n) : SoundDeclaration (Parse.declaration (n + 1)) := by
  intro s s' o hd hs he
  obtain ⟨d, rfl, h⟩ := recovering_eq_ok Grows.declaration_body hd he
  refine ⟨d, rfl, ?_⟩
  rw [bind_eq_ok] at h
  obtain ⟨o, s₁, h₁, h⟩ := h
  rcases accept_eq_ok h₁ with ⟨rfl, rfl, -⟩ | ⟨kw, rest, rfl, hr, hk, rfl⟩
  · rw [bind_eq_ok] at h
    obtain ⟨o, s₂, h₂, h⟩ := h
    rcases accept_eq_ok h₂ with ⟨rfl, rfl, -⟩ | ⟨kw, rest, rfl, hr, hk, rfl⟩
    · rw [bind_eq_ok] at h
      obtain ⟨o, s₃, h₃, h⟩ := h
      rcases accept_eq_ok h₃ with ⟨rfl, rfl, -⟩ | ⟨kw, rest, rfl, hr, hk, rfl⟩
      · obtain ⟨⟨b, ts, hts, hd, -⟩, hf⟩ := ih.statement h hs he
        exact ⟨⟨ts, hts, .statement hd⟩, hf⟩
      · obtain ⟨⟨ts, hts, hd⟩, hf⟩ := varDeclaration_sound n (by simpa using hk) h hs he
        refine ⟨⟨kw :: ts, ?_, .varDeclaration hd⟩, hf⟩
        simpa [hr] using hts
    · simp only [bind_eq_ok, pure_eq_ok] at h
      obtain ⟨f, s₃, h₃, rfl, rfl⟩ := h
      obtain ⟨⟨ts, hts, hd⟩, hf⟩ := ih.routine .function h₃ hs he
      refine ⟨⟨kw :: ts, ?_, .funDecl (by simpa using hk) hd⟩, hf⟩
      simpa [hr] using hts
  · obtain ⟨⟨ts, hts, hd⟩, hf⟩ := ih.classDeclaration (by simpa using hk) h hs he
    refine ⟨⟨kw :: ts, ?_, hd⟩, hf⟩
    simpa [hr] using hts

/-- The braces of a class and the methods between them. -/
theorem class_body (ih : StatementsSound n) {name : Token} {superclass : Option Expr}
    {s s' : State} {t : Stmt}
    (h : (do
      let _ ← Parse.expect (.symbol .leftBrace) .classBody
      let methods ← Parse.methods n
      let _ ← Parse.expect (.symbol .rightBrace) .classEnd
      return Stmt.classDecl name superclass methods : Parse Stmt) s = .ok t s') (hs : s.Ends)
    (he : s'.errors.length = s.errors.length) :
    ∃ lb ts rb methods, s.rest = lb :: (ts ++ [rb]) ++ s'.rest ∧ lb.kind = .symbol .leftBrace ∧
      Derives true .methods ts methods ∧ rb.kind = .symbol .rightBrace ∧
      t = .classDecl name superclass methods ∧
      Fresh s.nextId s'.nextId (Routine.nodesAll methods) := by
  simp only [bind_eq_ok, pure_eq_ok] at h
  obtain ⟨lb, s₁, h₁, methods, s₂, h₂, rb, s₃, h₃, rfl, rfl⟩ := h
  obtain ⟨rest₁, hr₁, hlb, rfl⟩ := expect_eq_ok h₁
  obtain ⟨rest₃, hr₃, hrb, rfl⟩ := expect_eq_ok h₃
  obtain ⟨⟨ts, hts, hd⟩, hf⟩ := ih.methods h₂ hs he
  refine ⟨lb, ts, rb, methods, ?_, by simpa using hlb, hd, by simpa using hrb, rfl, hf⟩
  simp only at hts
  simp [hr₁, hts, hr₃]

theorem next_classDeclaration (ih : StatementsSound n) :
    SoundAfter (.keyword .classKw) .declaration (Parse.classDeclaration (n + 1)) := by
  intro kw hkw s s' t h hs he
  rw [Parse.classDeclaration, bind_eq_ok] at h
  obtain ⟨name, s₁, h₁, h⟩ := h
  obtain ⟨rest₁, hr₁, hn, rfl⟩ := expect_eq_ok h₁
  simp only [Kind.alike_identifier] at hn
  rw [bind_eq_ok] at h
  obtain ⟨o, s₂, h₂, h⟩ := h
  rcases accept_eq_ok h₂ with ⟨rfl, rfl, -⟩ | ⟨less, rest₂, rfl, hr₂, hk, rfl⟩
  · obtain ⟨lb, ts, rb, methods, hts, hlb, hd, hrb, rfl, hf⟩ := ih.class_body h hs he
    refine ⟨⟨name :: lb :: (ts ++ [rb]), ?_, .classDecl hkw hn hlb hd hrb⟩, hf⟩
    simpa [hr₁] using hts
  · rw [bind_eq_ok] at h
    obtain ⟨parent, s₃, h₃, h⟩ := h
    obtain ⟨rest₃, hr₃, hp, rfl⟩ := expect_eq_ok h₃
    rw [bind_eq_ok] at h
    obtain ⟨id, s₄, h₄, h⟩ := h
    obtain ⟨rfl, rfl⟩ := freshId_eq_ok h₄
    have g := Grows.later Grows.class_body h
    obtain ⟨lb, ts, rb, methods, hts, hlb, hd, hrb, rfl, hf⟩ := ih.class_body h hs he
    refine ⟨⟨name :: less :: parent :: lb :: (ts ++ [rb]), ?_, .subclassDecl _ hkw hn
      (by simpa using hk) (by simpa using hp) hlb hd hrb⟩, ?_⟩
    · simp only at hr₂ hr₃ hts
      simp [hr₁, hr₂, hr₃, hts]
    · exact (Fresh.single _).append hf (Nat.le_succ _) g.nextId

theorem next_methods (ih : StatementsSound n) : Sound .methods (Parse.methods (n + 1)) := by
  intro s s' t h hs he
  simp only [Parse.methods, bind_eq_ok] at h
  obtain ⟨b, s₁, h₁, c, s₂, h₂, h⟩ := h
  obtain ⟨rfl, rfl⟩ := sees_eq_ok h₁
  obtain ⟨rfl, rfl⟩ := atEnd_eq_ok h₂
  split at h
  · obtain ⟨rfl, rfl⟩ := pure_eq_ok.1 h
    exact ⟨⟨[], rfl, .noMethods⟩, .nil _ _⟩
  · simp only [bind_eq_ok, pure_eq_ok] at h
    obtain ⟨first, s₃, h₃, rest, s₄, h₄, rfl, rfl⟩ := h
    have g₃ := (Goal.grows n (.routine .method)).later h₃
    have g₄ := (Goal.grows n .methods).later h₄
    have l₃ := g₃.length_le
    have l₄ := g₄.length_le
    obtain ⟨⟨ts, hts, hd⟩, hf⟩ := ih.routine .method h₃ hs (by omega)
    obtain ⟨⟨us, hus, hds⟩, hfs⟩ := ih.methods h₄ (g₃.ends hs) (by omega)
    exact ⟨⟨ts ++ us, by simp [hts, hus], .moreMethods hd hds⟩,
      Fresh.append hf hfs g₃.nextId g₄.nextId⟩

/-- The rest of a routine after its parameters. -/
theorem routine_body (ih : StatementsSound n) {kind : RoutineKind} {name : Token}
    {params : List Token} {s s' : State} {f : Routine}
    (h : (do
      let _ ← Parse.expect (.symbol .rightParen) .parameterListEnd
      let _ ← Parse.expect (.symbol .leftBrace) (.routineBody kind)
      return (⟨name, params, ← Parse.block n⟩ : Routine) : Parse Routine) s = .ok f s')
    (hs : s.Ends) (he : s'.errors.length = s.errors.length) :
    ∃ rp lb ts rb body, s.rest = rp :: lb :: (ts ++ [rb]) ++ s'.rest ∧
      rp.kind = .symbol .rightParen ∧ lb.kind = .symbol .leftBrace ∧
      Derives true .declarations ts body ∧ rb.kind = .symbol .rightBrace ∧
      f = ⟨name, params, body⟩ ∧ Fresh s.nextId s'.nextId (Stmt.nodesAll body) := by
  simp only [bind_eq_ok, pure_eq_ok] at h
  obtain ⟨rp, s₁, h₁, lb, s₂, h₂, body, s₃, h₃, rfl, rfl⟩ := h
  obtain ⟨rest₁, hr₁, hrp, rfl⟩ := expect_eq_ok h₁
  obtain ⟨rest₂, hr₂, hlb, rfl⟩ := expect_eq_ok h₂
  obtain ⟨⟨ts, rb, hts, hrb, hd⟩, hf⟩ := ih.block h₃ hs he
  refine ⟨rp, lb, ts, rb, body, ?_, by simpa using hrp, by simpa using hlb, hd, hrb, rfl, hf⟩
  simp only at hr₂ hts
  simp [hr₁, hr₂, hts]

theorem next_routine (ih : StatementsSound n) (kind : RoutineKind) :
    Sound .function (Parse.routine (n + 1) kind) := by
  intro s s' f h hs he
  simp only [Parse.routine, bind_eq_ok] at h
  obtain ⟨name, s₁, h₁, lp, s₂, h₂, b, s₃, h₃, h⟩ := h
  obtain ⟨rest₁, hr₁, hn, rfl⟩ := expect_eq_ok h₁
  obtain ⟨rest₂, hr₂, hlp, rfl⟩ := expect_eq_ok h₂
  obtain ⟨rfl, rfl⟩ := sees_eq_ok h₃
  simp only [Kind.alike_identifier, Kind.alike_symbol] at hn hlp
  simp only at hr₂
  split at h
  · obtain ⟨rp, lb, ts, rb, body, hts, hrp, hlb, hd, hrb, rfl, hf⟩ := ih.routine_body h hs he
    refine ⟨⟨_, ?_, .function hn hlp .none hrp hlb hd hrb⟩, hf⟩
    simpa [hr₁, hr₂] using hts
  · rw [bind_eq_ok] at h
    obtain ⟨params, s₄, h₄, h⟩ := h
    have g₄ := (Goal.grows n (.parameters 0)).later h₄
    have l₄ := g₄.length_le
    have g₅ := Grows.later Grows.routine_body h
    have l₅ := g₅.length_le
    simp only at l₄
    obtain ⟨⟨ps, hps, hp⟩, hlen, hid, -⟩ := parameters_sound h₄ (by simp only; omega)
    obtain ⟨rp, lb, ts, rb, body, hts, hrp, hlb, hd, hrb, rfl, hf⟩ :=
      ih.routine_body h (g₄.ends hs) (by omega)
    refine ⟨⟨_, ?_, .function hn hlp (.some hp (by simpa [maxArity] using hlen)) hrp hlb hd hrb⟩,
      hf.widen g₄.nextId (Nat.le_refl _)⟩
    simp only at hps
    simp [hr₁, hr₂, hps, hts]

theorem next_block (ih : StatementsSound n) : SoundBlock (Parse.block (n + 1)) := by
  intro s s' body h hs he
  simp only [Parse.block, bind_eq_ok] at h
  obtain ⟨b, s₁, h₁, c, s₂, h₂, h⟩ := h
  obtain ⟨rfl, rfl⟩ := sees_eq_ok h₁
  obtain ⟨rfl, rfl⟩ := atEnd_eq_ok h₂
  split at h
  · simp only [bind_eq_ok, pure_eq_ok] at h
    obtain ⟨rb, s₃, h₃, rfl, rfl⟩ := h
    obtain ⟨rest, hr, hrb, rfl⟩ := expect_eq_ok h₃
    exact ⟨⟨[], rb, by simpa using hr, by simpa using hrb, .noDeclarations⟩, .nil _ _⟩
  · rw [bind_eq_ok] at h
    obtain ⟨o, s₃, h₃, h⟩ := h
    have g₃ := (Goal.grows n .declaration).later h₃
    have l₃ := g₃.length_le
    cases o with
    | none =>
      have l₄ := ((Goal.grows n .block).later h).length_le
      obtain ⟨d, hd, -⟩ := ih.declaration h₃ hs (by omega)
      cases hd
    | some first =>
      simp only [bind_eq_ok, pure_eq_ok] at h
      obtain ⟨rest, s₄, h₄, rfl, rfl⟩ := h
      have g₄ := (Goal.grows n .block).later h₄
      have l₄ := g₄.length_le
      obtain ⟨d, ⟨⟩, ⟨ts, hts, hd⟩, hf⟩ := ih.declaration h₃ hs (by omega)
      obtain ⟨⟨us, rb, hus, hrb, hds⟩, hfs⟩ := ih.block h₄ (g₃.ends hs) (by omega)
      exact ⟨⟨ts ++ us, rb, by simp [hts, hus], hrb, .moreDeclarations hd hds⟩,
        Fresh.append hf hfs g₃.nextId g₄.nextId⟩

theorem next_ifStatement (ih : StatementsSound n) {kw : Token} (hkw : kw.kind = .keyword .ifKw) :
    SoundStatementAfter kw (Parse.ifStatement (n + 1)) := by
  intro s s' t h hs he
  simp only [Parse.ifStatement, bind_eq_ok] at h
  obtain ⟨lp, s₁, h₁, cond, s₂, h₂, rp, s₃, h₃, yes, s₄, h₄, o, s₅, h₅, h⟩ := h
  obtain ⟨rest₁, hr₁, hlp, rfl⟩ := expect_eq_ok h₁
  obtain ⟨rest₃, hr₃, hrp, rfl⟩ := expect_eq_ok h₃
  simp only [Kind.alike_symbol] at hlp hrp
  have g₂ := (Goal.grows n .expression).later h₂
  have g₄ := (Goal.grows n .statement).later h₄
  have l₂ := g₂.length_le
  have l₄ := g₄.length_le
  simp only at l₂ l₄
  rcases accept_eq_ok h₅ with ⟨rfl, rfl, hels⟩ | ⟨els, rest, rfl, hr, hk, rfl⟩
  · obtain ⟨rfl, rfl⟩ := pure_eq_ok.1 h
    obtain ⟨⟨cs, hcs, hc⟩, hfc⟩ := Sound.expression n h₂ hs (by simp only; omega)
    obtain ⟨⟨b, ts, hts, hd, -⟩, hf⟩ := ih.statement h₄ (g₂.ends hs) (by simp only; omega)
    refine ⟨⟨true, lp :: (cs ++ rp :: ts), ?_, .ifStmt hkw hlp hc hrp hd, fun _ => hels⟩,
      Fresh.append hfc hf g₂.nextId g₄.nextId⟩
    simp only at hcs hts
    simp [hr₁, hcs, hr₃, hts]
  · simp only [bind_eq_ok, pure_eq_ok] at h
    obtain ⟨no, s₆, h₆, rfl, rfl⟩ := h
    have g₆ := (Goal.grows n .statement).later h₆
    have l₆ := g₆.length_le
    simp only at l₆
    obtain ⟨⟨cs, hcs, hc⟩, hfc⟩ := Sound.expression n h₂ hs (by simp only; omega)
    obtain ⟨⟨a, ts, hts, hd, ha⟩, hf⟩ := ih.statement h₄ (g₂.ends hs) (by simp only; omega)
    obtain ⟨⟨b, us, hus, hdn, hb⟩, hfn⟩ :=
      ih.statement h₆ (g₄.ends (g₂.ends hs)) (by simp only; omega)
    -- the first branch would have taken the `else` if it could
    have ha : a = false := by
      cases a with
      | false => rfl
      | true => simp [hr, hk] at ha
    refine ⟨⟨b, lp :: (cs ++ rp :: (ts ++ els :: us)), ?_, .ifElseStmt hkw hlp hc hrp hd
      (by simpa using hk) hdn (fun _ => ha), hb⟩, ?_⟩
    · simp only at hcs hts hus
      simp [hr₁, hcs, hr₃, hts, hr, hus]
    · exact Fresh.append hfc (Fresh.append hf hfn g₄.nextId g₆.nextId) g₂.nextId
        (Nat.le_trans g₄.nextId g₆.nextId)

/-- The identities of a desugared loop are those of its parts, in another order. -/
theorem forLoop_nodes (init : Option Stmt) (cond increment : Option Expr) (body : Stmt) :
    (Stmt.nodesOption init ++ (Expr.nodesOption cond ++
      (Expr.nodesOption increment ++ body.nodes))).Perm (forLoop init cond increment body).nodes := by
  cases init <;> cases cond <;> cases increment <;>
    simp only [forLoop, Option.getD_none, Option.getD_some, Stmt.nodes, Stmt.nodesAll, Expr.nodes,
      Stmt.nodesOption, Expr.nodesOption, List.nil_append, List.append_nil]
  all_goals first
    | exact .refl _
    | exact List.perm_append_comm
    | exact .append_left _ List.perm_append_comm
    | exact .append_left _ (.append_left _ List.perm_append_comm)

/-- The rest of a `for` statement after its first clause. -/
theorem for_clauses (ih : StatementsSound n) {init : Option Stmt} {s s' : State} {t : Stmt}
    (h : (do
      let cond ← Parse.expressionUnless n (.symbol .semicolon)
      Parse.semicolon .loopConditionEnd
      let increment ← Parse.expressionUnless n (.symbol .rightParen)
      let _ ← Parse.expect (.symbol .rightParen) .forClausesEnd
      return forLoop init cond increment (← Parse.statement n) : Parse Stmt) s = .ok t s')
    (hs : s.Ends) (he : s'.errors.length = s.errors.length) :
    ∃ cond increment body b cs semi us rp ts,
      s.rest = cs ++ semi :: (us ++ rp :: ts) ++ s'.rest ∧ Derives true .optional cs cond ∧
      semi.kind = .symbol .semicolon ∧ Derives true .optional us increment ∧
      rp.kind = .symbol .rightParen ∧ Derives true (.statement b) ts body ∧
      (b = true → nextIs (·.alike (.keyword .elseKw)) s'.rest = false) ∧
      t = forLoop init cond increment body ∧ Fresh s.nextId s'.nextId
        (Expr.nodesOption cond ++ (Expr.nodesOption increment ++ body.nodes)) := by
  simp only [bind_eq_ok, pure_eq_ok] at h
  obtain ⟨cond, s₁, h₁, u, s₂, h₂, increment, s₃, h₃, rp, s₄, h₄, body, s₅, h₅, rfl, rfl⟩ := h
  obtain ⟨semi, rest₂, hr₂, hsemi, rfl⟩ := semicolon_eq_ok h₂
  obtain ⟨rest₄, hr₄, hrp, rfl⟩ := expect_eq_ok h₄
  have g₁ := (Goal.grows n (.expressionUnless _)).later h₁
  have g₃ := (Goal.grows n (.expressionUnless _)).later h₃
  have g₅ := (Goal.grows n .statement).later h₅
  have l₁ := g₁.length_le
  have l₃ := g₃.length_le
  have l₅ := g₅.length_le
  simp only at l₃ l₅
  obtain ⟨⟨cs, hcs, hc⟩, hfc⟩ := expressionUnless_sound h₁ hs (by omega)
  obtain ⟨⟨us, hus, hu⟩, hfu⟩ := expressionUnless_sound h₃ (g₁.ends hs) (by simp only; omega)
  obtain ⟨⟨b, ts, hts, hd, hb⟩, hf⟩ :=
    ih.statement h₅ (g₃.ends (g₁.ends hs)) (by simp only; omega)
  refine ⟨cond, increment, body, b, cs, semi, us, rp, ts, ?_, hc, hsemi, hu, by simpa using hrp, hd,
    hb, rfl, ?_⟩
  · simp only at hus hts
    simp [hcs, hr₂, hus, hr₄, hts]
  · exact Fresh.append hfc (Fresh.append hfu hf g₃.nextId g₅.nextId) g₁.nextId
      (Nat.le_trans g₃.nextId g₅.nextId)

theorem next_forStatement (ih : StatementsSound n) {kw : Token} (hkw : kw.kind = .keyword .forKw) :
    SoundStatementAfter kw (Parse.forStatement (n + 1)) := by
  intro s s' t h hs he
  simp only [Parse.forStatement, bind_eq_ok] at h
  obtain ⟨lp, s₁, h₁, o, s₂, h₂, h⟩ := h
  obtain ⟨rest₁, hr₁, hlp, rfl⟩ := expect_eq_ok h₁
  simp only [Kind.alike_symbol] at hlp
  -- whatever the first clause is, the others follow it
  have clauses {init : Option Stmt} {s₃ : State} (is : List Token) (hi : rest₁ = is ++ s₃.rest)
      (hd : Derives true .forInit is init) (hf : Fresh s.nextId s₃.nextId (Stmt.nodesOption init))
      (hid : s.nextId ≤ s₃.nextId) (hs₃ : s₃.Ends) (he₃ : s'.errors.length = s₃.errors.length)
      (h : (do
        let cond ← Parse.expressionUnless n (.symbol .semicolon)
        Parse.semicolon .loopConditionEnd
        let increment ← Parse.expressionUnless n (.symbol .rightParen)
        let _ ← Parse.expect (.symbol .rightParen) .forClausesEnd
        return forLoop init cond increment (← Parse.statement n) : Parse Stmt) s₃ = .ok t s') :
      ReadsStatement [kw] s s' t := by
    have g := Grows.for_clauses.later h
    obtain ⟨cond, increment, body, b, cs, semi, us, rp, ts, hr, hc, hsemi, hu, hrp, hb, hels, rfl,
      hfr⟩ := ih.for_clauses h hs₃ he₃
    have hfor := Derives.forStmt hkw hlp hd hc hsemi hu hrp hb
    rw [forTree_eq] at hfor
    refine ⟨⟨b, _, ?_, hfor, hels⟩, ?_⟩
    · simp [hr₁, hi, hr]
    · exact (hf.append hfr hid g.nextId).perm (forLoop_nodes init cond increment body)
  rcases accept_eq_ok h₂ with ⟨rfl, rfl, -⟩ | ⟨semi, rest₂, rfl, hr₂, hk, rfl⟩
  · rw [bind_eq_ok] at h
    obtain ⟨o, s₃, h₃, h⟩ := h
    rcases accept_eq_ok h₃ with ⟨rfl, rfl, -⟩ | ⟨var, rest₃, rfl, hr₃, hk, rfl⟩
    · rw [bind_eq_ok] at h
      obtain ⟨o, s₄, h₄, h⟩ := h
      rw [map_eq_ok] at h₄
      obtain ⟨init, h₄, rfl⟩ := h₄
      have g₄ := (Goal.grows n .expressionStatement).later h₄
      have l₄ := g₄.length_le
      have l₅ := (Grows.for_clauses.later h).length_le
      simp only at l₄
      obtain ⟨⟨is, his, hd⟩, hf⟩ := expressionStatement_sound n h₄ hs (by simp only; omega)
      exact clauses is his (.initExpr hd) hf g₄.nextId (g₄.ends hs) (by omega) h
    · rw [bind_eq_ok] at h
      obtain ⟨o, s₄, h₄, h⟩ := h
      rw [map_eq_ok] at h₄
      obtain ⟨init, h₄, rfl⟩ := h₄
      have g₄ := (Goal.grows n .varDeclaration).later h₄
      have l₄ := g₄.length_le
      have l₅ := (Grows.for_clauses.later h).length_le
      simp only at l₄ hr₃
      obtain ⟨⟨is, his, hd⟩, hf⟩ :=
        varDeclaration_sound n (by simpa using hk) h₄ hs (by simp only; omega)
      refine clauses (var :: is) ?_ (.initVar hd) hf g₄.nextId (g₄.ends hs) (by omega) h
      simpa [hr₃] using his
  · rw [bind_eq_ok] at h
    obtain ⟨o, s₃, h₃, h⟩ := h
    obtain ⟨rfl, rfl⟩ := pure_eq_ok.1 h₃
    refine clauses [semi] ?_ (.initNone (by simpa using hk)) (.nil _ _) ?_ ?_ ?_ h
    · exact hr₂
    · exact Nat.le_refl _
    · exact hs
    · exact he

theorem expression_statement {s s' : State} {t : Stmt} (h : expressionStatement n s = .ok t s')
    (hs : s.Ends) (he : s'.errors.length = s.errors.length) : ReadsStatement [] s s' t := by
  obtain ⟨⟨ts, hts, hd⟩, hf⟩ := expressionStatement_sound n h hs he
  exact ⟨⟨false, ts, hts, .expression hd, nofun⟩, hf⟩

/-- A statement that is told by its first token. -/
theorem skip_first {p : Parse Stmt} {first : Token} (hp : SoundStatementAfter first p)
    {rest : List Token} {s s' : State} {t : Stmt} (hr : s.rest = first :: rest)
    (h : (do skip; p) s = .ok t s') (hs : s.Ends) (he : s'.errors.length = s.errors.length) :
    ReadsStatement [] s s' t := by
  rw [bind_eq_ok] at h
  obtain ⟨u, s₁, h₁, h⟩ := h
  obtain rfl := skip_eq_ok h₁
  obtain ⟨⟨b, ts, hts, hd, hb⟩, hf⟩ := hp h hs he
  refine ⟨⟨b, first :: ts, ?_, hd, hb⟩, hf⟩
  simpa [hr] using hts

theorem print_statement {kw : Token} (hk : kw.kind = .keyword .printKw) :
    SoundStatementAfter kw (do
      let e ← expression n
      semicolon .printEnd
      return .print e) := by
  intro s s' t h hs he
  simp only [bind_eq_ok, pure_eq_ok] at h
  obtain ⟨e, s₁, h₁, u, s₂, h₂, rfl, rfl⟩ := h
  obtain ⟨semi, rest, hr, hsemi, rfl⟩ := semicolon_eq_ok h₂
  obtain ⟨⟨ts, hts, hd⟩, hf⟩ := Sound.expression n h₁ hs he
  exact ⟨⟨false, ts ++ [semi], by simp [hts, hr], .printStmt hk hd hsemi, nofun⟩, hf⟩

theorem break_statement {kw : Token} (hk : kw.kind = .keyword .breakKw) :
    SoundStatementAfter kw (do semicolon .breakEnd; return .breakLoop kw) := by
  intro s s' t h hs he
  simp only [bind_eq_ok, pure_eq_ok] at h
  obtain ⟨u, s₁, h₁, rfl, rfl⟩ := h
  obtain ⟨semi, rest, hr, hsemi, rfl⟩ := semicolon_eq_ok h₁
  exact ⟨⟨false, [semi], by simp [hr], .breakStmt hk hsemi, nofun⟩, .nil _ _⟩

theorem execute_statement {kw : Token} (hk : kw.kind = .keyword .executeKw) :
    SoundStatementAfter kw (do
      let path ← expression n
      semicolon .executeEnd
      return .execute kw path) := by
  intro s s' t h hs he
  simp only [bind_eq_ok, pure_eq_ok] at h
  obtain ⟨e, s₁, h₁, u, s₂, h₂, rfl, rfl⟩ := h
  obtain ⟨semi, rest, hr, hsemi, rfl⟩ := semicolon_eq_ok h₂
  obtain ⟨⟨ts, hts, hd⟩, hf⟩ := Sound.expression n h₁ hs he
  exact ⟨⟨false, ts ++ [semi], by simp [hts, hr], .executeStmt hk hd hsemi, nofun⟩, hf⟩

theorem return_statement {kw : Token} (hk : kw.kind = .keyword .returnKw) :
    SoundStatementAfter kw (do
      let value ← expressionUnless n (.symbol .semicolon)
      semicolon .returnEnd
      return .returnWith kw value) := by
  intro s s' t h hs he
  simp only [bind_eq_ok, pure_eq_ok] at h
  obtain ⟨e, s₁, h₁, u, s₂, h₂, rfl, rfl⟩ := h
  obtain ⟨semi, rest, hr, hsemi, rfl⟩ := semicolon_eq_ok h₂
  obtain ⟨⟨ts, hts, hd⟩, hf⟩ := expressionUnless_sound h₁ hs he
  exact ⟨⟨false, ts ++ [semi], by simp [hts, hr], .returnStmt hk hd hsemi, nofun⟩, hf⟩

theorem while_statement (ih : StatementsSound n) {kw : Token} (hk : kw.kind = .keyword .whileKw) :
    SoundStatementAfter kw (do
      let _ ← expect (.symbol .leftParen) .whileCondition
      let cond ← expression n
      let _ ← expect (.symbol .rightParen) .whileConditionEnd
      return .loop cond (← Parse.statement n)) := by
  intro s s' t h hs he
  simp only [bind_eq_ok, pure_eq_ok] at h
  obtain ⟨lp, s₁, h₁, cond, s₂, h₂, rp, s₃, h₃, body, s₄, h₄, rfl, rfl⟩ := h
  obtain ⟨rest₁, hr₁, hlp, rfl⟩ := expect_eq_ok h₁
  obtain ⟨rest₃, hr₃, hrp, rfl⟩ := expect_eq_ok h₃
  simp only [Kind.alike_symbol] at hlp hrp
  have g₂ := (Goal.grows n .expression).later h₂
  have g₄ := (Goal.grows n .statement).later h₄
  have l₂ := g₂.length_le
  have l₄ := g₄.length_le
  simp only at l₂ l₄
  obtain ⟨⟨cs, hcs, hc⟩, hfc⟩ := Sound.expression n h₂ hs (by simp only; omega)
  obtain ⟨⟨b, ts, hts, hd, hb⟩, hf⟩ := ih.statement h₄ (g₂.ends hs) (by simp only; omega)
  refine ⟨⟨b, lp :: (cs ++ rp :: ts), ?_, .whileStmt hk hlp hc hrp hd, hb⟩,
    Fresh.append hfc hf g₂.nextId g₄.nextId⟩
  simp only at hcs hts
  simp [hr₁, hcs, hr₃, hts]

theorem block_statement (ih : StatementsSound n) {lb : Token} (hk : lb.kind = .symbol .leftBrace) :
    SoundStatementAfter lb (do return .block (← Parse.block n)) := by
  intro s s' t h hs he
  simp only [bind_eq_ok, pure_eq_ok] at h
  obtain ⟨body, s₁, h₁, rfl, rfl⟩ := h
  obtain ⟨⟨ts, rb, hts, hrb, hd⟩, hf⟩ := ih.block h₁ hs he
  exact ⟨⟨false, ts ++ [rb], by simp [hts], .block hk hd hrb, nofun⟩, hf⟩

theorem next_statement (ih : StatementsSound n) : SoundStatement (Parse.statement (n + 1)) := by
  intro s s' t h hs he
  rw [Parse.statement, bind_eq_ok] at h
  obtain ⟨kw, s₁, h₁, h⟩ := h
  obtain ⟨hkw, rfl⟩ := peek_eq_ok h₁
  cases hr : s₁.rest with
  | nil =>
    have hk : kw.kind = .eof := by simpa [hr, hkw] using (show s₁.eof.kind = .eof from hs)
    simp only [hk] at h
    exact expression_statement h hs he
  | cons first rest =>
    obtain rfl : kw = first := by simp [hkw, hr]
    generalize hk : kw.kind = k at h
    split at h
    · exact skip_first (ih.forStatement hk) hr h hs he
    · exact skip_first (ih.ifStatement hk) hr h hs he
    · exact skip_first (print_statement hk) hr h hs he
    · exact skip_first (break_statement hk) hr h hs he
    · exact skip_first (execute_statement hk) hr h hs he
    · exact skip_first (return_statement hk) hr h hs he
    · exact skip_first (ih.while_statement hk) hr h hs he
    · exact skip_first (ih.block_statement hk) hr h hs he
    · exact expression_statement h hs he

end StatementsSound

theorem statementsSound (n : Nat) : StatementsSound n := by
  induction n with
  | zero =>
    constructor
    case routine => exact fun _ _ _ _ h => nomatch h
    case classDeclaration => exact fun _ _ _ _ _ h => nomatch h
    case forStatement => exact fun _ _ _ _ h => nomatch h
    case ifStatement => exact fun _ _ _ _ h => nomatch h
    all_goals exact fun _ _ _ h => nomatch h
  | succ n ih =>
    exact {
      declaration := ih.next_declaration
      classDeclaration := ih.next_classDeclaration
      methods := ih.next_methods
      routine := ih.next_routine
      block := ih.next_block
      statement := ih.next_statement
      forStatement := ih.next_forStatement
      ifStatement := ih.next_ifStatement }

/-- A program is read to its end. -/
theorem program_sound {n : Nat} {s s' : State} {stmts : List Stmt}
    (h : program n s = .ok stmts s') (hs : s.Ends) (he : s'.errors.length = s.errors.length) :
    Derives true .declarations s.rest stmts ∧ Fresh s.nextId s'.nextId (Stmt.nodesAll stmts) := by
  induction n generalizing s s' stmts with
  | zero => cases h
  | succ n ih =>
    rw [program, bind_eq_ok] at h
    obtain ⟨b, s₁, h₁, h⟩ := h
    obtain ⟨rfl, rfl⟩ := atEnd_eq_ok h₁
    split at h
    case isTrue hend =>
      obtain ⟨rfl, rfl⟩ := pure_eq_ok.1 h
      rw [List.isEmpty_iff.1 hend]
      exact ⟨.noDeclarations, .nil _ _⟩
    case isFalse =>
      rw [bind_eq_ok] at h
      obtain ⟨o, s₂, h₂, h⟩ := h
      have g₂ := (Goal.grows n .declaration).later h₂
      have l₂ := g₂.length_le
      have l₃ : s₂.errors.length ≤ s'.errors.length := by
        cases o with
        | none => exact ((Goal.grows n .program).later h).length_le
        | some d =>
          simp only [bind_eq_ok, pure_eq_ok] at h
          obtain ⟨rest, s₃, h₃, -, rfl⟩ := h
          exact ((Goal.grows n .program).later h₃).length_le
      obtain ⟨d, rfl, ⟨ts, hts, hd⟩, hf⟩ := (statementsSound n).declaration h₂ hs (by omega)
      simp only [bind_eq_ok, pure_eq_ok] at h
      obtain ⟨rest, s₃, h₃, rfl, rfl⟩ := h
      obtain ⟨hds, hfs⟩ := ih h₃ (g₂.ends hs) (by omega)
      rw [hts]
      exact ⟨.moreDeclarations hd hds,
        Fresh.append hf hfs g₂.nextId ((Goal.grows n .program).later h₃).nextId⟩

theorem isEof_iff (t : Token) : isEof t = true ↔ t.kind = .eof := Kind.alike_eof

theorem start_ends (tokens : List Token) (nextId : Nat) : (start tokens nextId).Ends := by
  show (endOf tokens).kind = .eof
  unfold endOf
  split
  case h_1 t ht => exact (isEof_iff t).1 (List.find?_some ht)
  case h_2 => rfl

end Parse

/-- The tree that is read is one of the grammar, and its identities are new. -/
theorem Stmt.parse_sound {tokens : List Token} {nextId : Nat} {stmts : List Stmt}
    (h : (Stmt.parse tokens nextId).1 = .ok stmts) :
    Grammar.Derives true .declarations (tokens.takeWhile (!Parse.isEof ·)) stmts ∧
      Fresh nextId (Stmt.parse tokens nextId).2 (Stmt.nodesAll stmts) := by
  unfold Stmt.parse at h ⊢
  cases hp : Parse.program (Parse.depth tokens.length) (Parse.start tokens nextId) with
  | error e s =>
    simp only [hp] at h
    cases h
  | ok stmts s =>
    simp only [hp] at h
    split at h
    case isFalse => cases h
    case isTrue he =>
      cases h
      exact Parse.program_sound hp (Parse.start_ends _ _) (by simp [List.isEmpty_iff.1 he, Parse.start])

/-- Identities are handed out in order, also by a reading that fails. -/
theorem Stmt.parse_nextId (tokens : List Token) (nextId : Nat) :
    nextId ≤ (Stmt.parse tokens nextId).2 := by
  have h : nextId ≤ (Ending.state (Parse.program _ (Parse.start tokens nextId))).nextId :=
    (Parse.Goal.grows (Parse.depth tokens.length) .program (Parse.start tokens nextId)).nextId
  unfold Stmt.parse
  split <;> simpa [*] using h

end Lox
