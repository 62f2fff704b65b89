import Lox.Proofs.Parse.Completeness
import Lox.Proofs.Parse.Soundness

/-!
# What the parser accepts

The grammar leaves open which `if` an `else` belongs to. Of the trees that it allows for a program,
one has every `else` at the nearest `if`, and this is the tree that the parser builds. So the parser
accepts what the grammar derives, and nothing else.
-/

namespace Lox
namespace Grammar

variable {a b : Bool}

/-- The rules with no statements below them, hence no `else`. -/
def Rule.simple : Rule → Bool
  | declarations | declaration | methods | function | statement _ => false
  | _ => true

/-- Where there is no `else`, and where every `else` is at the nearest `if`, both grammars agree. -/
theorem Derives.switch {r : Rule} {ts : List Token} {t : r.Tree} (h : Derives a r ts t)
    (hr : r.simple = true ∨ a = true) : Derives b r ts t := by
  induction h with
  | noDeclarations => exact .noDeclarations
  | moreDeclarations _ _ ihd ih =>
    exact .moreDeclarations (ihd (hr.imp_left nofun)) (ih (hr.imp_left nofun))
  | classDecl hkw hname hlb _ hrb ih => exact .classDecl hkw hname hlb (ih (hr.imp_left nofun)) hrb
  | subclassDecl id hkw hname hless hparent hlb _ hrb ih =>
    exact .subclassDecl id hkw hname hless hparent hlb (ih (hr.imp_left nofun)) hrb
  | funDecl hkw _ ih => exact .funDecl hkw (ih (hr.imp_left nofun))
  | varDeclaration _ ih => exact .varDeclaration (ih (.inl rfl))
  | statement _ ih => exact .statement (ih (hr.imp_left nofun))
  | noMethods => exact .noMethods
  | moreMethods _ _ ihf ih => exact .moreMethods (ihf (hr.imp_left nofun)) (ih (hr.imp_left nofun))
  | function hname hlp hp hrp hlb _ hrb ih =>
    exact .function hname hlp hp hrp hlb (ih (hr.imp_left nofun)) hrb
  | varDecl hkw hname hsemi => exact .varDecl hkw hname hsemi
  | varInit hkw hname heq _ hsemi ih => exact .varInit hkw hname heq (ih (.inl rfl)) hsemi
  | exprStmt _ hsemi ih => exact .exprStmt (ih (.inl rfl)) hsemi
  | expression _ ih => exact .expression (ih (.inl rfl))
  | forStmt hkw hlp _ _ hsemi _ hrp _ ihi ihc ihu ih =>
    exact .forStmt hkw hlp (ihi (.inl rfl)) (ihc (.inl rfl)) hsemi (ihu (.inl rfl)) hrp
      (ih (hr.imp_left nofun))
  | ifStmt hkw hlp _ hrp _ ihc ih => exact .ifStmt hkw hlp (ihc (.inl rfl)) hrp (ih (hr.imp_left nofun))
  | ifElseStmt hkw hlp _ hrp _ hels _ ha ihc ihy ihn =>
    exact .ifElseStmt hkw hlp (ihc (.inl rfl)) hrp (ihy (hr.imp_left nofun)) hels
      (ihn (hr.imp_left nofun)) fun _ => ha (hr.resolve_left nofun)
  | printStmt hkw _ hsemi ih => exact .printStmt hkw (ih (.inl rfl)) hsemi
  | returnStmt hkw _ hsemi ih => exact .returnStmt hkw (ih (.inl rfl)) hsemi
  | whileStmt hkw hlp _ hrp _ ihc ih =>
    exact .whileStmt hkw hlp (ihc (.inl rfl)) hrp (ih (hr.imp_left nofun))
  | breakStmt hkw hsemi => exact .breakStmt hkw hsemi
  | executeStmt hkw _ hsemi ih => exact .executeStmt hkw (ih (.inl rfl)) hsemi
  | block hlb _ hrb ih => exact .block hlb (ih (hr.imp_left nofun)) hrb
  | initVar _ ih => exact .initVar (ih (.inl rfl))
  | initExpr _ ih => exact .initExpr (ih (.inl rfl))
  | initNone hk => exact .initNone hk
  | absent => exact .absent
  | present _ ih => exact .present (ih (.inl rfl))
  | assignName id hname heq _ ih => exact .assignName id hname heq (ih (.inl rfl))
  | assignProperty _ hdot hname heq _ iho ih =>
    exact .assignProperty (iho (.inl rfl)) hdot hname heq (ih (.inl rfl))
  | logicOr _ ih => exact .logicOr (ih (.inl rfl))
  | operand hbelow _ ih => exact .operand hbelow (ih (.inl rfl))
  | operation _ hop hbelow _ ihl ihr => exact .operation (ihl (.inl rfl)) hop hbelow (ihr (.inl rfl))
  | unary hop _ ih => exact .unary hop (ih (.inl rfl))
  | operandCall _ ih => exact .operandCall (ih (.inl rfl))
  | callPrimary _ ih => exact .callPrimary (ih (.inl rfl))
  | callNone _ hlp hrp ih => exact .callNone (ih (.inl rfl)) hlp hrp
  | callArgs _ hlp _ hlen hrp ih iha => exact .callArgs (ih (.inl rfl)) hlp (iha (.inl rfl)) hlen hrp
  | property _ hdot hname ih => exact .property (ih (.inl rfl)) hdot hname
  | oneArgument _ ih => exact .oneArgument (ih (.inl rfl))
  | moreArguments _ hcomma _ ihe ih => exact .moreArguments (ihe (.inl rfl)) hcomma (ih (.inl rfl))
  | literal hw => exact .literal hw
  | thisRef id hk => exact .thisRef id hk
  | var id hk => exact .var id hk
  | group hlp _ hrp ih => exact .group hlp (ih (.inl rfl)) hrp
  | superRef id hk hdot hm => exact .superRef id hk hdot hm

/-- A statement that lacks an `else` can be given one. -/
def TakesElse : (r : Rule) → List Token → r.Tree → Prop
  | .statement true, ts, _ => ∀ ⦃els : Token⦄ ⦃us : List Token⦄ ⦃b : Bool⦄ ⦃no : Stmt⦄,
      els.kind = .keyword .elseKw → Derives true (.statement b) us no →
      ∃ b' t, Derives true (.statement b') (ts ++ els :: us) t
  | _, _, _ => True

theorem Derives.takesElse {r : Rule} {ts : List Token} {t : r.Tree} (h : Derives true r ts t) :
    TakesElse r ts t := by
  induction h with
  | @forStmt _ _ _ _ _ _ _ _ _ _ _ b _ hkw hlp hi hc hsemi hu hrp _ _ _ _ ih =>
    cases b with
    | false => trivial
    | true =>
      intro els us b no hels hno
      obtain ⟨b', t, ht⟩ := ih hels hno
      exact ⟨b', _, by simpa using Derives.forStmt hkw hlp hi hc hsemi hu hrp ht⟩
  | @ifStmt _ _ _ _ _ _ a _ hkw hlp hc hrp hy _ ih =>
    intro els us b no hels hno
    cases a with
    | false => exact ⟨b, _, by simpa using Derives.ifElseStmt hkw hlp hc hrp hy hels hno fun _ => rfl⟩
    | true =>
      -- the branch lacks an `else` itself, and is nearer
      obtain ⟨b', t, ht⟩ := ih hels hno
      exact ⟨true, _, by simpa using Derives.ifStmt hkw hlp hc hrp ht⟩
  | @ifElseStmt _ _ _ _ _ _ _ _ _ b _ _ hkw hlp hc hrp hy hels _ ha _ _ ih =>
    cases b with
    | false => trivial
    | true =>
      intro els us b no hels' hno
      obtain ⟨b', t, ht⟩ := ih hels' hno
      exact ⟨b', _, by simpa using Derives.ifElseStmt hkw hlp hc hrp hy hels ht ha⟩
  | @whileStmt _ _ _ _ _ _ b _ hkw hlp hc hrp _ _ ih =>
    cases b with
    | false => trivial
    | true =>
      intro els us b no hels hno
      obtain ⟨b', t, ht⟩ := ih hels hno
      exact ⟨b', _, by simpa using Derives.whileStmt hkw hlp hc hrp ht⟩
  | _ => trivial

/-- The same tokens, with every `else` at the nearest `if`. -/
def HasNearest : Rule → List Token → Prop
  | .statement _, ts => ∃ b t, Derives true (.statement b) ts t
  | .declarations, ts => ∃ t, Derives true .declarations ts t
  | .declaration, ts => ∃ t, Derives true .declaration ts t
  | .methods, ts => ∃ t, Derives true .methods ts t
  | .function, ts => ∃ t, Derives true .function ts t
  | _, _ => True

theorem Derives.hasNearest {r : Rule} {ts : List Token} {t : r.Tree} (h : Derives false r ts t) :
    HasNearest r ts := by
  induction h with
  | noDeclarations => exact ⟨_, .noDeclarations⟩
  | moreDeclarations _ _ ihd ih =>
    obtain ⟨_, hd⟩ := ihd
    obtain ⟨_, hds⟩ := ih
    exact ⟨_, .moreDeclarations hd hds⟩
  | classDecl hkw hname hlb _ hrb ih =>
    obtain ⟨_, hm⟩ := ih
    exact ⟨_, .classDecl hkw hname hlb hm hrb⟩
  | subclassDecl id hkw hname hless hparent hlb _ hrb ih =>
    obtain ⟨_, hm⟩ := ih
    exact ⟨_, .subclassDecl id hkw hname hless hparent hlb hm hrb⟩
  | funDecl hkw _ ih =>
    obtain ⟨_, hf⟩ := ih
    exact ⟨_, .funDecl hkw hf⟩
  | varDeclaration h => exact ⟨_, .varDeclaration (h.switch (.inl rfl))⟩
  | statement _ ih =>
    obtain ⟨_, _, hs⟩ := ih
    exact ⟨_, .statement hs⟩
  | noMethods => exact ⟨_, .noMethods⟩
  | moreMethods _ _ ihf ih =>
    obtain ⟨_, hf⟩ := ihf
    obtain ⟨_, hm⟩ := ih
    exact ⟨_, .moreMethods hf hm⟩
  | function hname hlp hp hrp hlb _ hrb ih =>
    obtain ⟨_, hb⟩ := ih
    exact ⟨_, .function hname hlp hp hrp hlb hb hrb⟩
  | expression h => exact ⟨_, _, .expression (h.switch (.inl rfl))⟩
  | forStmt hkw hlp hi hc hsemi hu hrp _ _ _ _ ih =>
    obtain ⟨_, _, hb⟩ := ih
    exact ⟨_, _, .forStmt hkw hlp (hi.switch (.inl rfl)) (hc.switch (.inl rfl)) hsemi
      (hu.switch (.inl rfl)) hrp hb⟩
  | ifStmt hkw hlp hc hrp _ _ ih =>
    obtain ⟨_, _, hy⟩ := ih
    exact ⟨_, _, .ifStmt hkw hlp (hc.switch (.inl rfl)) hrp hy⟩
  | ifElseStmt hkw hlp hc hrp _ hels _ _ _ ihy ihn =>
    obtain ⟨a, _, hy⟩ := ihy
    obtain ⟨b, _, hn⟩ := ihn
    cases a with
    | false => exact ⟨b, _, .ifElseStmt hkw hlp (hc.switch (.inl rfl)) hrp hy hels hn fun _ => rfl⟩
    | true =>
      obtain ⟨_, _, ht⟩ := hy.takesElse hels hn
      exact ⟨_, _, .ifStmt hkw hlp (hc.switch (.inl rfl)) hrp ht⟩
  | printStmt hkw he hsemi => exact ⟨_, _, .printStmt hkw (he.switch (.inl rfl)) hsemi⟩
  | returnStmt hkw he hsemi => exact ⟨_, _, .returnStmt hkw (he.switch (.inl rfl)) hsemi⟩
  | whileStmt hkw hlp hc hrp _ _ ih =>
    obtain ⟨_, _, hb⟩ := ih
    exact ⟨_, _, .whileStmt hkw hlp (hc.switch (.inl rfl)) hrp hb⟩
  | breakStmt hkw hsemi => exact ⟨_, _, .breakStmt hkw hsemi⟩
  | executeStmt hkw he hsemi => exact ⟨_, _, .executeStmt hkw (he.switch (.inl rfl)) hsemi⟩
  | block hlb _ hrb ih =>
    obtain ⟨_, hb⟩ := ih
    exact ⟨_, _, .block hlb hb hrb⟩
  | _ => trivial

end Grammar

open Grammar

/-- The tokens before the first `eof` are read exactly if the grammar derives them. Of the trees that
it derives, the one that is read has every `else` at the nearest `if`, and up to identities there is
no other such tree. -/
theorem Stmt.parse_ok_iff_derives (tokens : List Token) (nextId : Nat) :
    ((∃ stmts, (Stmt.parse tokens nextId).1 = .ok stmts) ↔
      ∃ t, Derives false .declarations (tokens.takeWhile (!Parse.isEof ·)) t) ∧
    ∀ stmts, (Stmt.parse tokens nextId).1 = .ok stmts →
      Derives true .declarations (tokens.takeWhile (!Parse.isEof ·)) stmts ∧
      ∀ t, Derives true .declarations (tokens.takeWhile (!Parse.isEof ·)) t →
        Stmt.eraseAll t = Stmt.eraseAll stmts := by
  constructor
  · constructor
    · rintro ⟨stmts, h⟩
      exact ⟨stmts, (Stmt.parse_sound h).1.switch (.inr rfl)⟩
    · rintro ⟨t, h⟩
      obtain ⟨t', h'⟩ := h.hasNearest
      obtain ⟨stmts, hp, -⟩ := Stmt.parse_complete h' nextId
      exact ⟨stmts, hp⟩
  · intro stmts h
    refine ⟨(Stmt.parse_sound h).1, fun t ht => ?_⟩
    obtain ⟨stmts', hp, her⟩ := Stmt.parse_complete ht nextId
    rw [h] at hp
    cases hp
    exact her.symm

/-- `if (a) if (b) c; else d;` -/
def danglingElse : List Token :=
  [⟨.keyword .ifKw, "if", 1⟩, ⟨.symbol .leftParen, "(", 1⟩, ⟨.identifier, "a", 1⟩,
    ⟨.symbol .rightParen, ")", 1⟩, ⟨.keyword .ifKw, "if", 1⟩, ⟨.symbol .leftParen, "(", 1⟩,
    ⟨.identifier, "b", 1⟩, ⟨.symbol .rightParen, ")", 1⟩, ⟨.identifier, "c", 1⟩,
    ⟨.symbol .semicolon, ";", 1⟩, ⟨.keyword .elseKw, "else", 1⟩, ⟨.identifier, "d", 1⟩,
    ⟨.symbol .semicolon, ";", 1⟩, ⟨.eof, "", 1⟩]

/-- The `else` goes to the second `if`. -/
def danglingElseTree : List Stmt :=
  [.branch (.var 0 ⟨.identifier, "a", 1⟩)
    (.branch (.var 1 ⟨.identifier, "b", 1⟩) (.expr (.var 2 ⟨.identifier, "c", 1⟩))
      (some (.expr (.var 3 ⟨.identifier, "d", 1⟩)))) none]

theorem Stmt.parse_danglingElse : (Stmt.parse danglingElse 0).1 = .ok danglingElseTree ∧
    ∀ t, Derives true .declarations (danglingElse.takeWhile (!Parse.isEof ·)) t →
      Stmt.eraseAll t = Stmt.eraseAll danglingElseTree := by
  have h : (Stmt.parse danglingElse 0).1 = .ok danglingElseTree := by cbv
  exact ⟨h, ((Stmt.parse_ok_iff_derives danglingElse 0).2 _ h).2⟩

end Lox
