import Lox.Proofs.Parse.ExpressionCompleteness

/-!
# Every program of the grammar is read

A statement ends where its tokens end, with one exception: after a statement that could take an
`else`, none may follow. No declaration starts with an `else`, so a program has no such place.
-/

namespace Lox
namespace Parse
open Ending Grammar

/-- Anything may follow. -/
abbrev anything : List Token → Prop := fun _ => True

/-- No `else` follows. -/
abbrev NoElse (rest : List Token) : Prop := nextIs (·.alike (.keyword .elseKw)) rest = false

/-- An optional expression, which one of two marks follows. -/
def CompletesOptional (ts : List Token) (value : Option Expr) : Prop :=
  ∀ mark, mark = Symbol.semicolon ∨ mark = Symbol.rightParen →
    Completes .optional 16 (nextIs (·.alike (.symbol mark)) · = true)
      (expressionUnless · (.symbol mark)) ts value

/-- The word `var` and a declaration after it. -/
def CompletesVar (ts : List Token) (d : Stmt) : Prop :=
  ∃ kw us, ts = kw :: us ∧ kw.kind = .keyword .varKw ∧
    Completes .varDecl 16 anything varDeclaration us d

abbrev CompletesExprStmt : List Token → Stmt → Prop :=
  Completes .exprStmt 16 anything expressionStatement

abbrev CompletesStatement (b : Bool) : List Token → Stmt → Prop :=
  Completes (.statement b) 17 (b = true → NoElse ·) statement

def CompletesDeclaration (ts : List Token) (d : Stmt) : Prop :=
  ∀ ⦃n : Nat⦄ ⦃s : State⦄ ⦃rest : List Token⦄, 32 * ts.length + 18 ≤ n → s.rest = ts ++ rest →
    NoElse rest →
    ∃ d' k, declaration n s = .ok (some d') { s with rest := rest, nextId := k } ∧
      d'.erase = d.erase

/-- Declarations are read up to the end of the input and up to the brace of a block. -/
structure CompletesDeclarations (ts : List Token) (ds : List Stmt) : Prop where
  program : Completes .declarations 19 (· = []) program ts ds
  block : ∀ ⦃n : Nat⦄ ⦃s : State⦄ ⦃rest : List Token⦄ ⦃rb : Token⦄, 32 * ts.length + 19 ≤ n →
    s.rest = ts ++ rb :: rest → rb.kind = .symbol .rightBrace →
    Yields .declarations (block n) s ds rest

abbrev CompletesMethods : List Token → List Routine → Prop :=
  Completes .methods 2 (nextIs (·.alike (.symbol .rightBrace)) · = true) methods

def CompletesRoutine (ts : List Token) (f : Routine) : Prop :=
  ∀ kind, Completes .function 1 anything (routine · kind) ts f

/-! ## Simple statements -/

theorem completes_absent : CompletesOptional [] none := by
  rintro mark - n s rest - hr hf
  refine ⟨none, s.nextId, ?_, rfl⟩
  simp only [List.nil_append] at hr
  show expressionUnless n (.symbol mark) s = _
  rw [expressionUnless, bind_ok (sees_apply _), hr, hf]
  simp only [if_true, pure_apply]
  rw [← hr]

theorem CompletesExpression.present {ts : List Token} {e : Expr} (h : CompletesExpression ts e)
    (hfirst : nextIs startsExpression ts = true) : CompletesOptional ts (some e) := by
  intro mark hmark n s rest hn hr hf
  obtain ⟨t, us, rfl, ht⟩ := exists_of_nextIs hf
  obtain ⟨e', k, he, her⟩ := h hn hr
    (.mark (Kind.alike_symbol.1 ht) (by rcases hmark with rfl | rfl <;> simp))
  have hnot : nextIs (·.alike (.symbol mark)) s.rest = false := by
    rw [hr]
    rcases hmark with rfl | rfl <;> exact not_next_symbol rfl hfirst _
  refine ⟨some e', k, ?_, congrArg some her⟩
  show expressionUnless n (.symbol mark) s = _
  rw [expressionUnless, bind_ok (sees_apply _), hnot]
  exact bind_ok he

theorem completes_varDecl {kw name semi : Token} (hkw : kw.kind = .keyword .varKw)
    (hname : name.kind = .identifier) (hsemi : semi.kind = .symbol .semicolon) :
    CompletesVar [kw, name, semi] (.varDecl name none) := by
  refine ⟨kw, [name, semi], rfl, hkw, ?_⟩
  intro n s rest hn hr _
  refine ⟨.varDecl name none, s.nextId, ?_, rfl⟩
  rw [varDeclaration, bind_ok (expect_of_next hr hname),
    bind_ok (accept_of_not_next (by simp [hsemi, Kind.alike]))]
  simp only
  rw [bind_ok (pure_apply _), bind_ok (semicolon_of_next rfl hsemi)]
  rfl

theorem CompletesExpression.varInit {ts : List Token} {e : Expr} {kw name eq semi : Token}
    (hkw : kw.kind = .keyword .varKw) (hname : name.kind = .identifier)
    (heq : eq.kind = .symbol .equal) (h : CompletesExpression ts e)
    (hsemi : semi.kind = .symbol .semicolon) :
    CompletesVar (kw :: name :: eq :: (ts ++ [semi])) (.varDecl name (some e)) := by
  refine ⟨kw, _, rfl, hkw, ?_⟩
  intro n s rest hn hr _
  simp only [List.length_append, List.length_cons, List.length_nil] at hn
  obtain ⟨e', k, he, her⟩ := h (n := n) (s := { s with rest := ts ++ semi :: rest }) (by omega) rfl
    (.mark hsemi (by simp))
  have her : e'.erase = e.erase := her
  refine ⟨.varDecl name (some e'), k, ?_, by simp [Rule.erase, Stmt.erase, Expr.eraseOption, her]⟩
  have hr' : s.rest = name :: eq :: (ts ++ semi :: rest) := by simp [hr]
  rw [varDeclaration, bind_ok (expect_of_next hr' hname), bind_ok (accept_of_next rfl heq)]
  simp only
  rw [bind_ok (map_eq_ok.2 ⟨_, he, rfl⟩), bind_ok (semicolon_of_next rfl hsemi)]
  rfl

theorem CompletesExpression.exprStmt {ts : List Token} {e : Expr} {semi : Token}
    (h : CompletesExpression ts e) (hsemi : semi.kind = .symbol .semicolon) :
    CompletesExprStmt (ts ++ [semi]) (.expr e) := by
  intro n s rest hn hr _
  simp only [List.length_append, List.length_cons, List.length_nil] at hn
  have hr' : s.rest = ts ++ semi :: rest := by simp [hr]
  obtain ⟨e', k, he, her⟩ := h (n := n) (by omega) hr' (.mark hsemi (by simp))
  refine ⟨.expr e', k, ?_, congrArg Stmt.expr her⟩
  rw [expressionStatement, bind_ok he, bind_ok (semicolon_of_next rfl hsemi)]
  rfl

/-- No other statement starts like an expression. -/
theorem statement_of_startsExpression {n : Nat} {s : State}
    (hfirst : nextIs startsExpression s.rest = true) :
    statement (n + 1) s = expressionStatement n s := by
  obtain ⟨t, us, hr, ht⟩ := exists_of_nextIs hfirst
  rw [statement, bind_ok (peek_of_next hr)]
  generalize t.kind = k at ht
  split
  case h_9 => rfl
  all_goals cases ht

theorem CompletesExprStmt.statement {ts : List Token} {d : Stmt} (h : CompletesExprStmt ts d)
    (hfirst : nextIs startsExpression ts = true) : CompletesStatement false ts d := by
  intro n s rest hn hr _
  obtain ⟨n, rfl⟩ : ∃ n', n = n' + 1 := ⟨n - 1, by omega⟩
  obtain ⟨d', k, hd, hdr⟩ := h (n := n) (by omega) hr trivial
  refine ⟨d', k, ?_, hdr⟩
  rw [statement_of_startsExpression (by rw [hr]; exact nextIs_append _ hfirst)]
  exact hd

theorem CompletesExpression.print {ts : List Token} {e : Expr} {kw semi : Token}
    (hkw : kw.kind = .keyword .printKw) (h : CompletesExpression ts e)
    (hsemi : semi.kind = .symbol .semicolon) :
    CompletesStatement false (kw :: (ts ++ [semi])) (.print e) := by
  intro n s rest hn hr _
  simp only [List.length_append, List.length_cons, List.length_nil] at hn
  obtain ⟨n, rfl⟩ : ∃ n', n = n' + 1 := ⟨n - 1, by omega⟩
  have hr' : s.rest = kw :: (ts ++ semi :: rest) := by simp [hr]
  obtain ⟨e', k, he, her⟩ := h (n := n) (s := { s with rest := ts ++ semi :: rest }) (by omega) rfl
    (.mark hsemi (by simp))
  refine ⟨.print e', k, ?_, congrArg Stmt.print her⟩
  rw [statement, bind_ok (peek_of_next hr')]
  simp only [hkw]
  rw [bind_ok (skip_of_next hr'), bind_ok he, bind_ok (semicolon_of_next rfl hsemi)]
  rfl

theorem CompletesExpression.execute {ts : List Token} {e : Expr} {kw semi : Token}
    (hkw : kw.kind = .keyword .executeKw) (h : CompletesExpression ts e)
    (hsemi : semi.kind = .symbol .semicolon) :
    CompletesStatement false (kw :: (ts ++ [semi])) (.execute kw e) := by
  intro n s rest hn hr _
  simp only [List.length_append, List.length_cons, List.length_nil] at hn
  obtain ⟨n, rfl⟩ : ∃ n', n = n' + 1 := ⟨n - 1, by omega⟩
  have hr' : s.rest = kw :: (ts ++ semi :: rest) := by simp [hr]
  obtain ⟨e', k, he, her⟩ := h (n := n) (s := { s with rest := ts ++ semi :: rest }) (by omega) rfl
    (.mark hsemi (by simp))
  refine ⟨.execute kw e', k, ?_, congrArg (Stmt.execute kw) her⟩
  rw [statement, bind_ok (peek_of_next hr')]
  simp only [hkw]
  rw [bind_ok (skip_of_next hr'), bind_ok he, bind_ok (semicolon_of_next rfl hsemi)]
  rfl

theorem CompletesOptional.returnWith {ts : List Token} {value : Option Expr} {kw semi : Token}
    (hkw : kw.kind = .keyword .returnKw) (h : CompletesOptional ts value)
    (hsemi : semi.kind = .symbol .semicolon) :
    CompletesStatement false (kw :: (ts ++ [semi])) (.returnWith kw value) := by
  intro n s rest hn hr _
  simp only [List.length_append, List.length_cons, List.length_nil] at hn
  obtain ⟨n, rfl⟩ : ∃ n', n = n' + 1 := ⟨n - 1, by omega⟩
  have hr' : s.rest = kw :: (ts ++ semi :: rest) := by simp [hr]
  obtain ⟨e', k, he, her⟩ := h .semicolon (.inl rfl) (n := n)
    (s := { s with rest := ts ++ semi :: rest }) (by omega) rfl (by simp [hsemi])
  refine ⟨.returnWith kw e', k, ?_, congrArg (Stmt.returnWith kw) her⟩
  rw [statement, bind_ok (peek_of_next hr')]
  simp only [hkw]
  rw [bind_ok (skip_of_next hr'), bind_ok he, bind_ok (semicolon_of_next rfl hsemi)]
  rfl

theorem completes_breakLoop {kw semi : Token} (hkw : kw.kind = .keyword .breakKw)
    (hsemi : semi.kind = .symbol .semicolon) :
    CompletesStatement false [kw, semi] (.breakLoop kw) := by
  intro n s rest hn hr _
  obtain ⟨n, rfl⟩ : ∃ n', n = n' + 1 := ⟨n - 1, by omega⟩
  refine ⟨.breakLoop kw, s.nextId, ?_, rfl⟩
  rw [statement, bind_ok (peek_of_next hr)]
  simp only [hkw]
  rw [bind_ok (skip_of_next hr), bind_ok (semicolon_of_next rfl hsemi)]
  rfl

/-! ## Statements with statements in them -/

theorem CompletesStatement.loop {cs ts : List Token} {cond : Expr} {b : Bool} {body : Stmt}
    {kw lp rp : Token} (hkw : kw.kind = .keyword .whileKw) (hlp : lp.kind = .symbol .leftParen)
    (hc : CompletesExpression cs cond) (hrp : rp.kind = .symbol .rightParen)
    (h : CompletesStatement b ts body) :
    CompletesStatement b (kw :: lp :: (cs ++ rp :: ts)) (.loop cond body) := by
  intro n s rest hn hr hf
  simp only [List.length_append, List.length_cons] at hn
  obtain ⟨n, rfl⟩ : ∃ n', n = n' + 1 := ⟨n - 1, by omega⟩
  have hr' : s.rest = kw :: lp :: (cs ++ rp :: (ts ++ rest)) := by simp [hr]
  obtain ⟨cond', k, hc, hcr⟩ := hc (n := n) (s := { s with rest := cs ++ rp :: (ts ++ rest) })
    (by omega) rfl (.mark hrp (by simp))
  obtain ⟨body', k', hb, hbr⟩ := h (n := n) (s := { s with rest := ts ++ rest, nextId := k })
    (by omega) rfl hf
  refine ⟨.loop cond' body', k', ?_, congrArg₂ Stmt.loop hcr hbr⟩
  rw [statement, bind_ok (peek_of_next hr')]
  simp only [hkw]
  rw [bind_ok (skip_of_next hr'), bind_ok (expect_of_next rfl hlp), bind_ok hc,
    bind_ok (expect_of_next rfl hrp), bind_ok hb]
  rfl

theorem CompletesDeclarations.blockStmt {ts : List Token} {body : List Stmt} {lb rb : Token}
    (hlb : lb.kind = .symbol .leftBrace) (h : CompletesDeclarations ts body)
    (hrb : rb.kind = .symbol .rightBrace) :
    CompletesStatement false (lb :: (ts ++ [rb])) (.block body) := by
  intro n s rest hn hr _
  simp only [List.length_append, List.length_cons, List.length_nil] at hn
  obtain ⟨n, rfl⟩ : ∃ n', n = n' + 1 := ⟨n - 1, by omega⟩
  have hr' : s.rest = lb :: (ts ++ rb :: rest) := by simp [hr]
  obtain ⟨body', k, hb, hbr⟩ := h.block (n := n) (s := { s with rest := ts ++ rb :: rest })
    (by omega) rfl hrb
  refine ⟨.block body', k, ?_, congrArg Stmt.block hbr⟩
  rw [statement, bind_ok (peek_of_next hr')]
  simp only [hlb]
  rw [bind_ok (skip_of_next hr'), bind_ok hb]
  rfl

theorem CompletesStatement.branch {cs ts : List Token} {cond : Expr} {b : Bool} {yes : Stmt}
    {kw lp rp : Token} (hkw : kw.kind = .keyword .ifKw) (hlp : lp.kind = .symbol .leftParen)
    (hc : CompletesExpression cs cond) (hrp : rp.kind = .symbol .rightParen)
    (h : CompletesStatement b ts yes) :
    CompletesStatement true (kw :: lp :: (cs ++ rp :: ts)) (.branch cond yes none) := by
  intro n s rest hn hr hf
  simp only [List.length_append, List.length_cons] at hn
  obtain ⟨n, rfl⟩ : ∃ n', n = n' + 2 := ⟨n - 2, by omega⟩
  have hr' : s.rest = kw :: lp :: (cs ++ rp :: (ts ++ rest)) := by simp [hr]
  obtain ⟨cond', k, hc, hcr⟩ := hc (n := n) (s := { s with rest := cs ++ rp :: (ts ++ rest) })
    (by omega) rfl (.mark hrp (by simp))
  obtain ⟨yes', k', hy, hyr⟩ := h (n := n) (s := { s with rest := ts ++ rest, nextId := k })
    (by omega) rfl (fun _ => hf rfl)
  refine ⟨.branch cond' yes' none, k', ?_, ?_⟩
  · rw [statement, bind_ok (peek_of_next hr')]
    simp only [hkw]
    rw [bind_ok (skip_of_next hr'), ifStatement, bind_ok (expect_of_next rfl hlp), bind_ok hc,
      bind_ok (expect_of_next rfl hrp), bind_ok hy, bind_ok (accept_of_not_next (hf rfl))]
    rfl
  · exact congrArg₂ (Stmt.branch · · none) hcr hyr

/-- A first branch that could take the `else` itself would have taken it. -/
theorem CompletesStatement.branchElse {cs ts us : List Token} {cond : Expr} {b : Bool}
    {yes no : Stmt} {kw lp rp els : Token} (hkw : kw.kind = .keyword .ifKw)
    (hlp : lp.kind = .symbol .leftParen) (hc : CompletesExpression cs cond)
    (hrp : rp.kind = .symbol .rightParen) (hy : CompletesStatement false ts yes)
    (hels : els.kind = .keyword .elseKw) (hno : CompletesStatement b us no) :
    CompletesStatement b (kw :: lp :: (cs ++ rp :: (ts ++ els :: us)))
      (.branch cond yes (some no)) := by
  intro n s rest hn hr hf
  simp only [List.length_append, List.length_cons] at hn
  obtain ⟨n, rfl⟩ : ∃ n', n = n' + 2 := ⟨n - 2, by omega⟩
  have hr' : s.rest = kw :: lp :: (cs ++ rp :: (ts ++ els :: (us ++ rest))) := by simp [hr]
  obtain ⟨cond', k, hc, hcr⟩ := hc (n := n)
    (s := { s with rest := cs ++ rp :: (ts ++ els :: (us ++ rest)) }) (by omega) rfl
    (.mark hrp (by simp))
  obtain ⟨yes', k', hy, hyr⟩ := hy (n := n)
    (s := { s with rest := ts ++ els :: (us ++ rest), nextId := k }) (by omega) rfl nofun
  obtain ⟨no', k'', hno, hnor⟩ := hno (n := n) (s := { s with rest := us ++ rest, nextId := k' })
    (by omega) rfl hf
  refine ⟨.branch cond' yes' (some no'), k'', ?_, ?_⟩
  · rw [statement, bind_ok (peek_of_next hr')]
    simp only [hkw]
    rw [bind_ok (skip_of_next hr'), ifStatement, bind_ok (expect_of_next rfl hlp), bind_ok hc,
      bind_ok (expect_of_next rfl hrp), bind_ok hy, bind_ok (accept_of_next rfl hels)]
    exact bind_ok hno
  · have hcr : cond'.erase = cond.erase := hcr
    have hyr : yes'.erase = yes.erase := hyr
    have hnor : no'.erase = no.erase := hnor
    simp [Rule.erase, Stmt.erase, hcr, hyr, hnor]

/-- The first clause of a `for` statement. -/
inductive CompletesInit : List Token → Option Stmt → Prop
  | absent {semi : Token} : semi.kind = .symbol .semicolon → CompletesInit [semi] none
  | var {ts : List Token} {d : Stmt} : CompletesVar ts d → CompletesInit ts (some d)
  | expr {ts : List Token} {d : Stmt} : CompletesExprStmt ts d →
      nextIs startsExpression ts = true → CompletesInit ts (some d)

theorem erase_forLoop (init : Option Stmt) (cond increment : Option Expr) (body : Stmt) :
    (forLoop init cond increment body).erase =
      forLoop (Stmt.eraseOption init) (Expr.eraseOption cond) (Expr.eraseOption increment)
        body.erase := by
  cases init <;> cases cond <;> cases increment <;>
    simp [forLoop, Stmt.erase, Stmt.eraseAll, Stmt.eraseOption, Expr.eraseOption, Expr.erase]

/-- The clauses after the first, and the body. -/
theorem for_clauses {cs us ts : List Token} {init init' : Option Stmt} {cond increment : Option Expr}
    {b : Bool} {body : Stmt} {semi rp : Token}
    (hinit : Stmt.eraseOption init' = Stmt.eraseOption init) (hc : CompletesOptional cs cond)
    (hsemi : semi.kind = .symbol .semicolon) (hu : CompletesOptional us increment)
    (hrp : rp.kind = .symbol .rightParen) (h : CompletesStatement b ts body)
    {n : Nat} {s : State} {rest : List Token}
    (hn : 32 * (cs.length + us.length + ts.length) + 17 ≤ n)
    (hr : s.rest = cs ++ semi :: (us ++ rp :: (ts ++ rest))) (hf : b = true → NoElse rest) :
    Yields (.statement b) (do
      let cond ← expressionUnless n (.symbol .semicolon)
      semicolon .loopConditionEnd
      let increment ← expressionUnless n (.symbol .rightParen)
      let _ ← expect (.symbol .rightParen) .forClausesEnd
      return forLoop init' cond increment (← statement n))
      s (forLoop init cond increment body) rest := by
  obtain ⟨cond', k, hc, hcr⟩ := hc .semicolon (.inl rfl) (n := n) (by omega) hr (by simp [hsemi])
  obtain ⟨increment', k', hu, hur⟩ := hu .rightParen (.inr rfl) (n := n)
    (s := { s with rest := us ++ rp :: (ts ++ rest), nextId := k }) (by omega) rfl (by simp [hrp])
  obtain ⟨body', k'', hb, hbr⟩ := h (n := n) (s := { s with rest := ts ++ rest, nextId := k' })
    (by omega) rfl hf
  refine ⟨forLoop init' cond' increment' body', k'', ?_, ?_⟩
  · rw [bind_ok hc, bind_ok (semicolon_of_next rfl hsemi), bind_ok hu,
      bind_ok (expect_of_next rfl hrp), bind_ok hb]
    rfl
  · have hcr : Expr.eraseOption cond' = Expr.eraseOption cond := hcr
    have hur : Expr.eraseOption increment' = Expr.eraseOption increment := hur
    have hbr : body'.erase = body.erase := hbr
    simp [Rule.erase, erase_forLoop, hinit, hcr, hur, hbr]

theorem CompletesInit.forStmt {is cs us ts : List Token} {init : Option Stmt}
    {cond increment : Option Expr} {b : Bool} {body : Stmt} {kw lp semi rp : Token}
    (hkw : kw.kind = .keyword .forKw) (hlp : lp.kind = .symbol .leftParen)
    (hi : CompletesInit is init) (hc : CompletesOptional cs cond)
    (hsemi : semi.kind = .symbol .semicolon) (hu : CompletesOptional us increment)
    (hrp : rp.kind = .symbol .rightParen) (h : CompletesStatement b ts body) :
    CompletesStatement b (kw :: lp :: (is ++ (cs ++ semi :: (us ++ rp :: ts))))
      (forLoop init cond increment body) := by
  intro n s rest hn hr hf
  simp only [List.length_append, List.length_cons] at hn
  obtain ⟨n, rfl⟩ : ∃ n', n = n' + 2 := ⟨n - 2, by omega⟩
  have hr' : s.rest = kw :: lp :: (is ++ (cs ++ semi :: (us ++ rp :: (ts ++ rest)))) := by simp [hr]
  have clauses (init' : Option Stmt) (k : Nat)
      (hinit : Stmt.eraseOption init' = Stmt.eraseOption init) :=
    for_clauses hinit hc hsemi hu hrp h (n := n)
      (s := { s with rest := cs ++ semi :: (us ++ rp :: (ts ++ rest)), nextId := k }) (by omega) rfl hf
  cases hi with
  | absent hk =>
    obtain ⟨t', k, ht, htr⟩ := clauses none s.nextId rfl
    refine ⟨t', k, ?_, htr⟩
    rw [statement, bind_ok (peek_of_next hr')]
    simp only [hkw]
    rw [bind_ok (skip_of_next hr'), forStatement, bind_ok (expect_of_next rfl hlp),
      bind_ok (accept_of_next rfl hk)]
    exact ht
  | var hd =>
    obtain ⟨var, vs, rfl, hvar, hd⟩ := hd
    simp only [List.length_cons] at hn
    obtain ⟨d', k, hd, hdr⟩ := hd (n := n)
      (s := { s with rest := vs ++ (cs ++ semi :: (us ++ rp :: (ts ++ rest))) }) (by omega) rfl trivial
    obtain ⟨t', k', ht, htr⟩ := clauses (some d') k (congrArg some hdr)
    refine ⟨t', k', ?_, htr⟩
    rw [statement, bind_ok (peek_of_next hr')]
    simp only [hkw]
    rw [bind_ok (skip_of_next hr'), forStatement, bind_ok (expect_of_next rfl hlp),
      bind_ok (accept_of_not_next (by simp [hvar, Kind.alike]))]
    simp only
    rw [bind_ok (accept_of_next rfl hvar)]
    simp only
    exact (bind_ok (map_eq_ok.2 ⟨_, hd, rfl⟩)).trans ht
  | expr hd hfirst =>
    obtain ⟨d', k, hd, hdr⟩ := hd (n := n)
      (s := { s with rest := is ++ (cs ++ semi :: (us ++ rp :: (ts ++ rest))) }) (by omega) rfl trivial
    obtain ⟨t', k', ht, htr⟩ := clauses (some d') k (congrArg some hdr)
    refine ⟨t', k', ?_, htr⟩
    have hsemi := not_next_symbol (s := .semicolon) rfl hfirst
    have hvar := not_next_keyword (w := .varKw) rfl hfirst
    rw [statement, bind_ok (peek_of_next hr')]
    simp only [hkw]
    rw [bind_ok (skip_of_next hr'), forStatement, bind_ok (expect_of_next rfl hlp),
      bind_ok (accept_of_not_next (hsemi _))]
    simp only
    rw [bind_ok (accept_of_not_next (hvar _))]
    simp only
    exact (bind_ok (map_eq_ok.2 ⟨_, hd, rfl⟩)).trans ht

/-! ## Declarations -/

theorem CompletesVar.declaration {ts : List Token} {d : Stmt} (h : CompletesVar ts d) :
    CompletesDeclaration ts d := by
  intro n s rest hn hr _
  obtain ⟨kw, us, rfl, hkw, h⟩ := h
  simp only [List.length_cons] at hn
  obtain ⟨n, rfl⟩ : ∃ n', n = n' + 1 := ⟨n - 1, by omega⟩
  obtain ⟨d', k, hd, hdr⟩ := h (n := n) (s := { s with rest := us ++ rest }) (by omega) rfl trivial
  refine ⟨d', k, ?_, hdr⟩
  have hr' : s.rest = kw :: (us ++ rest) := by simp [hr]
  have hclass : nextIs (·.alike (.keyword .classKw)) s.rest = false := by simp [hr', hkw, Kind.alike]
  have hfun : nextIs (·.alike (.keyword .funKw)) s.rest = false := by simp [hr', hkw, Kind.alike]
  rw [Parse.declaration, recovering_apply, bind_ok (accept_of_not_next hclass)]
  simp only
  rw [bind_ok (accept_of_not_next hfun)]
  simp only
  rw [bind_ok (accept_of_next hr' hkw)]
  simp only [hd]

theorem CompletesStatement.declaration {b : Bool} {ts : List Token} {d : Stmt}
    (h : CompletesStatement b ts d) (hfirst : nextIs (Rule.statement b).first ts = true) :
    CompletesDeclaration ts d := by
  intro n s rest hn hr hf
  obtain ⟨n, rfl⟩ : ∃ n', n = n' + 1 := ⟨n - 1, by omega⟩
  obtain ⟨d', k, hd, hdr⟩ := h (n := n) (by omega) hr (fun _ => hf)
  refine ⟨d', k, ?_, hdr⟩
  have hclass : nextIs (·.alike (.keyword .classKw)) s.rest = false :=
    hr ▸ not_next_keyword rfl hfirst rest
  have hfun : nextIs (·.alike (.keyword .funKw)) s.rest = false :=
    hr ▸ not_next_keyword rfl hfirst rest
  have hvar : nextIs (·.alike (.keyword .varKw)) s.rest = false :=
    hr ▸ not_next_keyword rfl hfirst rest
  rw [Parse.declaration, recovering_apply, bind_ok (accept_of_not_next hclass)]
  simp only
  rw [bind_ok (accept_of_not_next hfun)]
  simp only
  rw [bind_ok (accept_of_not_next hvar)]
  simp only [hd]

theorem CompletesRoutine.declaration {ts : List Token} {f : Routine} {kw : Token}
    (hkw : kw.kind = .keyword .funKw) (h : CompletesRoutine ts f) :
    CompletesDeclaration (kw :: ts) (.function f) := by
  intro n s rest hn hr _
  simp only [List.length_cons] at hn
  obtain ⟨n, rfl⟩ : ∃ n', n = n' + 1 := ⟨n - 1, by omega⟩
  obtain ⟨f', k, hd, hdr⟩ := h .function (n := n) (s := { s with rest := ts ++ rest }) (by omega) rfl
    trivial
  refine ⟨.function f', k, ?_, congrArg Stmt.function hdr⟩
  have hr : s.rest = kw :: (ts ++ rest) := hr
  have hclass : nextIs (·.alike (.keyword .classKw)) s.rest = false := by simp [hr, hkw, Kind.alike]
  rw [Parse.declaration, recovering_apply, bind_ok (accept_of_not_next hclass)]
  simp only
  rw [bind_ok (accept_of_next hr hkw)]
  simp only
  rw [bind_ok hd]
  rfl

theorem parameters_complete {ts names : List Token} (h : Names ts names) {n count : Nat} {s : State}
    {rest : List Token} (hcount : count + names.length ≤ maxArity) (hn : ts.length < n)
    (hr : s.rest = ts ++ rest) (hf : nextIs (·.alike (.symbol .comma)) rest = false) :
    parameters n count s = .ok names { s with rest := rest } := by
  induction h generalizing n count s with
  | one hk =>
    obtain ⟨n, rfl⟩ : ∃ n', n = n' + 1 := ⟨n - 1, by omega⟩
    have hlt : ¬ maxArity ≤ count := by simp only [List.length_singleton] at hcount; omega
    rw [parameters, if_neg hlt]
    beta_reduce
    rw [bind_ok (expect_of_next hr hk), bind_ok (accept_of_not_next hf)]
    rfl
  | more hk hc _ ih =>
    simp only [List.length_cons] at hn hcount
    obtain ⟨n, rfl⟩ : ∃ n', n = n' + 1 := ⟨n - 1, by omega⟩
    have hlt : ¬ maxArity ≤ count := by omega
    rw [parameters, if_neg hlt]
    beta_reduce
    rw [bind_ok (expect_of_next hr hk), bind_ok (accept_of_next rfl hc)]
    simp only
    rw [bind_ok (ih (by omega) (by omega) rfl)]
    rfl

theorem CompletesDeclarations.routine {ps ts params : List Token} {body : List Stmt}
    {name lp rp lb rb : Token} (hname : name.kind = .identifier)
    (hlp : lp.kind = .symbol .leftParen) (hp : Parameters ps params)
    (hrp : rp.kind = .symbol .rightParen) (hlb : lb.kind = .symbol .leftBrace)
    (h : CompletesDeclarations ts body) (hrb : rb.kind = .symbol .rightBrace) :
    CompletesRoutine (name :: lp :: (ps ++ rp :: lb :: (ts ++ [rb]))) ⟨name, params, body⟩ := by
  intro kind n s rest hn hr _
  simp only [List.length_append, List.length_cons, List.length_nil] at hn
  obtain ⟨n, rfl⟩ : ∃ n', n = n' + 1 := ⟨n - 1, by omega⟩
  have hr' : s.rest = name :: lp :: (ps ++ rp :: lb :: (ts ++ rb :: rest)) := by simp [hr]
  obtain ⟨body', k, hb, hbr⟩ := h.block (n := n) (s := { s with rest := ts ++ rb :: rest })
    (by omega) rfl hrb
  refine ⟨⟨name, params, body'⟩, k, ?_, congrArg (Routine.mk name params) hbr⟩
  show Parse.routine (n + 1) kind s = _
  rw [Parse.routine, bind_ok (expect_of_next hr' hname), bind_ok (expect_of_next rfl hlp),
    bind_ok (sees_apply _)]
  cases hp with
  | none =>
    simp only [List.nil_append, nextIs_cons, hrp, Kind.alike_refl, if_true]
    rw [bind_ok (pure_apply _), bind_ok (expect_of_next rfl hrp), bind_ok (expect_of_next rfl hlb),
      bind_ok hb]
    rfl
  | some hnames hlen =>
    have hnot : nextIs (·.alike (.symbol .rightParen)) (ps ++ rp :: lb :: (ts ++ rb :: rest)) = false := by
      cases hnames with
      | one hk => simp [hk, Kind.alike]
      | more hk => simp [hk, Kind.alike]
    simp only [hnot, if_false, Bool.false_eq_true]
    rw [bind_ok (parameters_complete hnames (by simpa [maxArity] using hlen) (by omega) rfl
      (by simp [hrp, Kind.alike])), bind_ok (expect_of_next rfl hrp),
      bind_ok (expect_of_next rfl hlb), bind_ok hb]
    rfl

theorem completes_noMethods : CompletesMethods [] [] := by
  intro n s rest hn hr hf
  obtain ⟨n, rfl⟩ : ∃ n', n = n' + 1 := ⟨n - 1, by omega⟩
  refine ⟨[], s.nextId, ?_, rfl⟩
  simp only [List.nil_append] at hr
  rw [methods, bind_ok (sees_apply _), bind_ok atEnd_apply, hr, hf]
  simp only [Bool.true_or, if_true, pure_apply]
  rw [← hr]

theorem CompletesRoutine.methods {fs ts : List Token} {f : Routine} {rest : List Routine}
    (hf : CompletesRoutine fs f) (hfirst : nextIs Rule.function.first fs = true)
    (h : CompletesMethods ts rest) : CompletesMethods (fs ++ ts) (f :: rest) := by
  intro n s us hn hr hfollow
  obtain ⟨t, fs', rfl, -⟩ := exists_of_nextIs hfirst
  simp only [List.length_append, List.length_cons] at hn
  obtain ⟨n, rfl⟩ : ∃ n', n = n' + 1 := ⟨n - 1, by omega⟩
  have hr' : s.rest = t :: fs' ++ (ts ++ us) := by simp [hr]
  obtain ⟨f', k, hf, hfr⟩ := hf .method (n := n) (by simp only [List.length_cons]; omega) hr' trivial
  obtain ⟨rest', k', hrest, hrestr⟩ := h (n := n) (s := { s with rest := ts ++ us, nextId := k })
    (by omega) rfl hfollow
  refine ⟨f' :: rest', k', ?_, congrArg₂ List.cons hfr hrestr⟩
  have hnot : nextIs (·.alike (.symbol .rightBrace)) s.rest = false :=
    hr' ▸ not_next_symbol rfl hfirst _
  have hend : s.rest.isEmpty = false := by simp [hr']
  rw [Parse.methods, bind_ok (sees_apply _), bind_ok atEnd_apply, hnot, hend]
  simp only [Bool.or_self, if_false, Bool.false_eq_true]
  rw [bind_ok hf, bind_ok hrest]
  rfl

/-- The braces of a class and the methods between them. -/
theorem class_body {ts : List Token} {methods : List Routine} {lb rb : Token}
    (name : Token) (superclass : Option Expr) (hlb : lb.kind = .symbol .leftBrace) (h : CompletesMethods ts methods)
    (hrb : rb.kind = .symbol .rightBrace) {n : Nat} {s : State} {rest : List Token}
    (hn : 32 * ts.length + 2 ≤ n) (hr : s.rest = lb :: (ts ++ rb :: rest)) :
    ∃ methods' k, (do
      let _ ← expect (.symbol .leftBrace) .classBody
      let methods ← Parse.methods n
      let _ ← expect (.symbol .rightBrace) .classEnd
      return Stmt.classDecl name superclass methods : Parse Stmt) s =
        .ok (.classDecl name superclass methods') { s with rest := rest, nextId := k } ∧
      Routine.eraseAll methods' = Routine.eraseAll methods := by
  obtain ⟨methods', k, hm, hmr⟩ := h (n := n) (s := { s with rest := ts ++ rb :: rest }) hn rfl
    (by simp [hrb])
  refine ⟨methods', k, ?_, hmr⟩
  rw [bind_ok (expect_of_next hr hlb), bind_ok hm, bind_ok (expect_of_next rfl hrb)]
  rfl

theorem CompletesMethods.classDecl {ts : List Token} {methods : List Routine}
    {kw name lb rb : Token} (hkw : kw.kind = .keyword .classKw) (hname : name.kind = .identifier)
    (hlb : lb.kind = .symbol .leftBrace) (h : CompletesMethods ts methods)
    (hrb : rb.kind = .symbol .rightBrace) :
    CompletesDeclaration (kw :: name :: lb :: (ts ++ [rb])) (.classDecl name none methods) := by
  intro n s rest hn hr _
  simp only [List.length_append, List.length_cons, List.length_nil] at hn
  obtain ⟨n, rfl⟩ : ∃ n', n = n' + 2 := ⟨n - 2, by omega⟩
  have hr' : s.rest = kw :: name :: lb :: (ts ++ rb :: rest) := by simp [hr]
  obtain ⟨methods', k, hm, hmr⟩ := class_body name none hlb h hrb (n := n)
    (s := { s with rest := lb :: (ts ++ rb :: rest) }) (by omega) rfl
  refine ⟨.classDecl name none methods', k, ?_, by simp [Stmt.erase, hmr]⟩
  rw [Parse.declaration, recovering_apply, bind_ok (accept_of_next hr' hkw)]
  simp only
  rw [classDeclaration, bind_ok (expect_of_next rfl hname),
    bind_ok (accept_of_not_next (by simp [hlb, Kind.alike]))]
  simp only
  rw [bind_ok (pure_apply _), hm]

theorem CompletesMethods.subclassDecl {ts : List Token} {methods : List Routine}
    {kw name less parent lb rb : Token} (id : Nat) (hkw : kw.kind = .keyword .classKw)
    (hname : name.kind = .identifier) (hless : less.kind = .symbol .less)
    (hparent : parent.kind = .identifier) (hlb : lb.kind = .symbol .leftBrace)
    (h : CompletesMethods ts methods) (hrb : rb.kind = .symbol .rightBrace) :
    CompletesDeclaration (kw :: name :: less :: parent :: lb :: (ts ++ [rb]))
      (.classDecl name (some (.var id parent)) methods) := by
  intro n s rest hn hr _
  simp only [List.length_append, List.length_cons, List.length_nil] at hn
  obtain ⟨n, rfl⟩ : ∃ n', n = n' + 2 := ⟨n - 2, by omega⟩
  have hr' : s.rest = kw :: name :: less :: parent :: lb :: (ts ++ rb :: rest) := by simp [hr]
  obtain ⟨methods', k, hm, hmr⟩ := class_body name (some (.var s.nextId parent)) hlb h hrb
    (n := n) (s := { s with rest := lb :: (ts ++ rb :: rest), nextId := s.nextId + 1 }) (by omega) rfl
  refine ⟨.classDecl name (some (.var s.nextId parent)) methods', k, ?_,
    by simp [Stmt.erase, hmr, Expr.eraseOption, Expr.erase]⟩
  rw [Parse.declaration, recovering_apply, bind_ok (accept_of_next hr' hkw)]
  simp only
  rw [classDeclaration, bind_ok (expect_of_next rfl hname), bind_ok (accept_of_next rfl hless)]
  simp only
  rw [bind_ok (expect_of_next rfl hparent), bind_ok freshId_apply, bind_ok (pure_apply _), hm]

theorem completes_noDeclarations : CompletesDeclarations [] [] where
  program := by
    intro n s rest hn hr hf
    obtain ⟨n, rfl⟩ : ∃ n', n = n' + 1 := ⟨n - 1, by omega⟩
    refine ⟨[], s.nextId, ?_, rfl⟩
    simp only [List.nil_append] at hr
    rw [program, bind_ok atEnd_apply, hr, hf]
    simp only [List.isEmpty_nil, if_true, pure_apply]
    rw [← hf, ← hr]
  block := by
    intro n s rest rb hn hr hrb
    obtain ⟨n, rfl⟩ : ∃ n', n = n' + 1 := ⟨n - 1, by omega⟩
    refine ⟨[], s.nextId, ?_, rfl⟩
    have hsees : nextIs (·.alike (.symbol .rightBrace)) s.rest = true := by simp [hr, hrb]
    rw [block, bind_ok (sees_apply _), bind_ok atEnd_apply, hsees]
    simp only [Bool.true_or, if_true]
    rw [bind_ok (expect_of_next hr hrb)]
    rfl

theorem CompletesDeclaration.declarations {ds ts : List Token} {d : Stmt} {rest : List Stmt}
    (hd : CompletesDeclaration ds d) (hfirst : nextIs Rule.declaration.first ds = true)
    (h : CompletesDeclarations ts rest)
    (hnext : ts = [] ∨ nextIs Rule.declarations.first ts = true) :
    CompletesDeclarations (ds ++ ts) (d :: rest) := by
  obtain ⟨t, ds', rfl, -⟩ := exists_of_nextIs hfirst
  -- what follows the first declaration is another one, or what follows them all
  have noElse (us : List Token) (hus : NoElse us) : NoElse (ts ++ us) := by
    rcases hnext with rfl | hnext
    · exact hus
    · exact not_next_keyword rfl hnext us
  constructor
  case program =>
    intro n s us hn hr hfollow
    simp only [List.length_append, List.length_cons] at hn
    obtain ⟨n, rfl⟩ : ∃ n', n = n' + 1 := ⟨n - 1, by omega⟩
    have hr' : s.rest = t :: ds' ++ (ts ++ us) := by simp [hr]
    obtain ⟨d', k, hd, hdr⟩ := hd (n := n) (by simp only [List.length_cons]; omega) hr'
      (noElse us (by rw [hfollow]; rfl))
    obtain ⟨rest', k', hrest, hrestr⟩ := h.program (n := n)
      (s := { s with rest := ts ++ us, nextId := k }) (by omega) rfl hfollow
    refine ⟨d' :: rest', k', ?_, congrArg₂ List.cons hdr hrestr⟩
    have hend : s.rest.isEmpty = false := by simp [hr']
    rw [Parse.program, bind_ok atEnd_apply, hend]
    simp only [if_false, Bool.false_eq_true]
    rw [bind_ok hd]
    exact bind_ok hrest
  case block =>
    intro n s us rb hn hr hrb
    simp only [List.length_append, List.length_cons] at hn
    obtain ⟨n, rfl⟩ : ∃ n', n = n' + 1 := ⟨n - 1, by omega⟩
    have hr' : s.rest = t :: ds' ++ (ts ++ rb :: us) := by simp [hr]
    obtain ⟨d', k, hd, hdr⟩ := hd (n := n) (by simp only [List.length_cons]; omega) hr'
      (noElse (rb :: us) (by simp [NoElse, hrb, Kind.alike]))
    obtain ⟨rest', k', hrest, hrestr⟩ := h.block (n := n)
      (s := { s with rest := ts ++ rb :: us, nextId := k }) (by omega) rfl hrb
    refine ⟨d' :: rest', k', ?_, congrArg₂ List.cons hdr hrestr⟩
    have hend : s.rest.isEmpty = false := by simp [hr']
    have hnot : nextIs (·.alike (.symbol .rightBrace)) s.rest = false :=
      hr' ▸ not_next_symbol rfl hfirst _
    rw [Parse.block, bind_ok (sees_apply _), bind_ok atEnd_apply, hnot, hend]
    simp only [Bool.or_self, if_false, Bool.false_eq_true]
    rw [bind_ok hd]
    exact bind_ok hrest

/-! ## All rules -/

/-- The parser reads what the rule derives. -/
def Completed : (r : Rule) → List Token → r.Tree → Prop
  | .declarations => CompletesDeclarations
  | .declaration => CompletesDeclaration
  | .methods => CompletesMethods
  | .function => CompletesRoutine
  | .varDecl => CompletesVar
  | .exprStmt => CompletesExprStmt
  | .statement b => CompletesStatement b
  | .forInit => CompletesInit
  | .optional => CompletesOptional
  | .expression => CompletesExpression
  | .operation level => CompletesOperand level
  | .call => CompletesCall
  | .arguments => CompletesArguments
  | .primary => CompletesPrimary

theorem complete {r : Rule} {ts : List Token} {t : r.Tree} (h : Derives true r ts t) :
    Completed r ts t := by
  induction h with
  | noDeclarations => exact completes_noDeclarations
  | moreDeclarations hd hds ihd ihds =>
    exact CompletesDeclaration.declarations ihd (hd.first rfl) ihds
      (hds.first_or_nil.imp_left And.right)
  | classDecl hkw hname hlb _ hrb ih => exact CompletesMethods.classDecl hkw hname hlb ih hrb
  | subclassDecl id hkw hname hless hparent hlb _ hrb ih =>
    exact CompletesMethods.subclassDecl id hkw hname hless hparent hlb ih hrb
  | funDecl hkw _ ih => exact CompletesRoutine.declaration hkw ih
  | varDeclaration _ ih => exact CompletesVar.declaration ih
  | statement hs ih => exact CompletesStatement.declaration ih (hs.first rfl)
  | noMethods => exact completes_noMethods
  | moreMethods hf _ ihf ih => exact CompletesRoutine.methods ihf (hf.first rfl) ih
  | function hname hlp hp hrp hlb _ hrb ih =>
    exact CompletesDeclarations.routine hname hlp hp hrp hlb ih hrb
  | varDecl hkw hname hsemi => exact completes_varDecl hkw hname hsemi
  | varInit hkw hname heq _ hsemi ih => exact CompletesExpression.varInit hkw hname heq ih hsemi
  | exprStmt _ hsemi ih => exact CompletesExpression.exprStmt ih hsemi
  | expression hs ih => exact CompletesExprStmt.statement ih (hs.first rfl)
  | forStmt hkw hlp _ _ hsemi _ hrp _ ihi ihc ihu ih =>
    rw [forTree_eq]
    exact CompletesInit.forStmt hkw hlp ihi ihc hsemi ihu hrp ih
  | ifStmt hkw hlp _ hrp _ ihc ih => exact CompletesStatement.branch hkw hlp ihc hrp ih
  | ifElseStmt hkw hlp _ hrp _ hels _ ha ihc ihy ihn =>
    obtain rfl := ha rfl
    exact CompletesStatement.branchElse hkw hlp ihc hrp ihy hels ihn
  | printStmt hkw _ hsemi ih => exact CompletesExpression.print hkw ih hsemi
  | returnStmt hkw _ hsemi ih => exact CompletesOptional.returnWith hkw ih hsemi
  | whileStmt hkw hlp _ hrp _ ihc ih => exact CompletesStatement.loop hkw hlp ihc hrp ih
  | breakStmt hkw hsemi => exact completes_breakLoop hkw hsemi
  | executeStmt hkw _ hsemi ih => exact CompletesExpression.execute hkw ih hsemi
  | block hlb _ hrb ih => exact CompletesDeclarations.blockStmt hlb ih hrb
  | initVar _ ih => exact .var ih
  | initExpr hs ih => exact .expr ih (hs.first rfl)
  | initNone hk => exact .absent hk
  | absent => exact completes_absent
  | present he ih => exact CompletesExpression.present ih (he.first rfl)
  | assignName id hname heq _ ih => exact CompletesExpression.assignName id hname heq ih
  | assignProperty ho hdot hname heq _ iho ih =>
    exact CompletesExpression.assignProperty iho (ho.first rfl) hdot hname heq ih
  | logicOr _ ih => exact CompletesOperation.expression ih
  | operand hbelow _ ih =>
    cases operands_iff.1 hbelow
    exact CompletesOperand.single ih
  | operation _ hop hbelow _ ihl ihr =>
    obtain ⟨hhas, rfl⟩ := binary_iff.1 hop
    cases operands_iff.1 hbelow
    exact CompletesOperation.more ihl hhas ihr
  | unary hop _ ih => exact CompletesOperand.negate (unary_iff.1 hop) ih
  | operandCall hc ih => exact CompletesCall.unary ih (hc.first rfl)
  | callPrimary _ ih => exact CompletesPrimary.call ih
  | callNone _ hlp hrp ih => exact CompletesCall.callNone ih hlp hrp
  | callArgs _ hlp ha hlen hrp ih iha =>
    exact CompletesCall.callArgs ih hlp iha (ha.first rfl) hlen hrp
  | property _ hdot hname ih => exact CompletesCall.property ih hdot hname
  | oneArgument _ ih => exact CompletesExpression.oneArgument ih
  | moreArguments _ hcomma _ ihe ih => exact CompletesArguments.more ihe hcomma ih
  | literal hw => exact completes_literal hw
  | thisRef id hk => exact completes_thisRef id hk
  | var id hk => exact completes_var id hk
  | group hlp _ hrp ih => exact CompletesExpression.group ih hlp hrp
  | superRef id hk hdot hm => exact completes_superRef id hk hdot hm

end Parse

/-- A program of the grammar is read, whatever the first identity is. -/
theorem Stmt.parse_complete {tokens : List Token} {stmts : List Stmt}
    (h : Grammar.Derives true .declarations (tokens.takeWhile (!Parse.isEof ·)) stmts) (nextId : Nat) :
    ∃ stmts', (Stmt.parse tokens nextId).1 = .ok stmts' ∧
      Stmt.eraseAll stmts' = Stmt.eraseAll stmts := by
  have hlen : (tokens.takeWhile (!Parse.isEof ·)).length ≤ tokens.length :=
    (List.takeWhile_prefix _).length_le
  obtain ⟨stmts', k, hp, her⟩ := (Parse.complete h).program
    (n := Parse.depth tokens.length) (s := Parse.start tokens nextId)
    (by simp only [Parse.depth]; omega) (by simp [Parse.start]) rfl
  refine ⟨stmts', ?_, her⟩
  rw [Stmt.parse, hp]
  rfl

end Lox
