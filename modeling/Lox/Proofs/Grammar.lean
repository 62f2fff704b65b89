import Lox.Program.Parse

/-!
# The grammar of programs

The rules say which lists of tokens are programs, without saying how to find out. Each constructor
of `Derives` is one production, and carries the tree that the production builds:

    program     → declaration* EOF
    declaration → "class" IDENT ( "<" IDENT )? "{" function* "}" | "fun" function | varDecl | statement
    function    → IDENT "(" parameters? ")" block
    varDecl     → "var" IDENT ( "=" expression )? ";"
    statement   → exprStmt | forStmt | ifStmt | printStmt | returnStmt | whileStmt | breakStmt
                | executeStmt | block
    expression  → ( call "." )? IDENT "=" expression | logic_or
    logic_or    → logic_and ( "or" logic_and )*        and so on down to unary
    call        → primary ( "(" arguments? ")" | "." IDENT )*

A repetition of operators or suffixes is a rule that starts with itself, so that what stands
further left is further down in the tree. The grammar is ambiguous in one place: an `else` may
belong to any `if` that has none yet. With `nearest` it belongs to the last of them.

The identities in a tree are no part of the grammar: a production builds a tree with any.
-/

namespace Lox
namespace Grammar
open Parse

/-- The nonterminals. A statement is `dangling` when it ends in an `if` without an `else`. -/
inductive Rule where
  | declarations
  | declaration
  | methods
  | function
  | varDecl
  | exprStmt
  | statement (dangling : Bool)
  | forInit
  | optional
  | expression
  | operation (level : Option Level)
  | call
  | arguments
  | primary

/-- Below the tightest level of operations stands `unary`. -/
abbrev Rule.unary : Rule := .operation none

/-- What a rule builds. -/
abbrev Rule.Tree : Rule → Type
  | declarations => List Stmt
  | declaration | varDecl | exprStmt | statement _ => Stmt
  | methods => List Routine
  | function => Routine
  | forInit => Option Stmt
  | optional => Option Expr
  | arguments => List Expr
  | expression | operation _ | call | primary => Expr

/-- `parameters?`: names with commas between them, at most eight. -/
inductive Names : List Token → List Token → Prop
  | one {t : Token} : t.kind = .identifier → Names [t] [t]
  | more {t c : Token} {ts names : List Token} : t.kind = .identifier → c.kind = .symbol .comma →
      Names ts names → Names (t :: c :: ts) (t :: names)

inductive Parameters : List Token → List Token → Prop
  | none : Parameters [] []
  | some {ts names : List Token} : Names ts names → names.length ≤ 8 → Parameters ts names

/-- The literals, each of one token. -/
inductive Writes : Kind → Literal → Prop
  | false : Writes (.keyword .falseKw) (.bool false)
  | true : Writes (.keyword .trueKw) (.bool true)
  | nil : Writes (.keyword .nilKw) .nil
  | number (x : Float) : Writes (.number x) (.number x)
  | string (s : String) : Writes (.string s) (.string s)

/-- The operators from the loosest level to the tightest, with the trees they build. -/
inductive Binary : Level → Kind → (Expr → Token → Expr → Expr) → Prop
  | or : Binary .or (.keyword .orKw) .logical
  | and : Binary .and (.keyword .andKw) .logical
  | bangEqual : Binary .equality (.symbol .bangEqual) .binary
  | equalEqual : Binary .equality (.symbol .equalEqual) .binary
  | greater : Binary .comparison (.symbol .greater) .binary
  | greaterEqual : Binary .comparison (.symbol .greaterEqual) .binary
  | less : Binary .comparison (.symbol .less) .binary
  | lessEqual : Binary .comparison (.symbol .lessEqual) .binary
  | minus : Binary .term (.symbol .minus) .binary
  | plus : Binary .term (.symbol .plus) .binary
  | slash : Binary .factor (.symbol .slash) .binary
  | star : Binary .factor (.symbol .star) .binary

/-- What stands between the operators of a level: operations of the next level, and in the end `unary`. -/
inductive Operands : Level → Option Level → Prop
  | or : Operands .or (some .and)
  | and : Operands .and (some .equality)
  | equality : Operands .equality (some .comparison)
  | comparison : Operands .comparison (some .term)
  | term : Operands .term (some .factor)
  | factor : Operands .factor none

inductive Unary : Kind → Prop
  | bang : Unary (.symbol .bang)
  | minus : Unary (.symbol .minus)

/-- What a `for` statement stands for, with and without each of its clauses. -/
def forTree : Option Stmt → Option Expr → Option Expr → Stmt → Stmt
  | none, none, none, body => .loop (.literal (.bool true)) body
  | none, none, some u, body => .loop (.literal (.bool true)) (.block [body, .expr u])
  | none, some c, none, body => .loop c body
  | none, some c, some u, body => .loop c (.block [body, .expr u])
  | some i, none, none, body => .block [i, .loop (.literal (.bool true)) body]
  | some i, none, some u, body => .block [i, .loop (.literal (.bool true)) (.block [body, .expr u])]
  | some i, some c, none, body => .block [i, .loop c body]
  | some i, some c, some u, body => .block [i, .loop c (.block [body, .expr u])]

inductive Derives (nearest : Bool) : (r : Rule) → List Token → r.Tree → Prop
  | noDeclarations : Derives nearest .declarations [] []
  | moreDeclarations {ds ts : List Token} {d : Stmt} {rest : List Stmt} :
      Derives nearest .declaration ds d → Derives nearest .declarations ts rest →
      Derives nearest .declarations (ds ++ ts) (d :: rest)
  | classDecl {kw name lb rb : Token} {ts : List Token} {methods : List Routine} :
      kw.kind = .keyword .classKw → name.kind = .identifier → lb.kind = .symbol .leftBrace →
      Derives nearest .methods ts methods → rb.kind = .symbol .rightBrace →
      Derives nearest .declaration (kw :: name :: lb :: (ts ++ [rb])) (.classDecl name none methods)
  | subclassDecl {kw name less parent lb rb : Token} {ts : List Token} {methods : List Routine}
      (id : Nat) :
      kw.kind = .keyword .classKw → name.kind = .identifier → less.kind = .symbol .less →
      parent.kind = .identifier → lb.kind = .symbol .leftBrace →
      Derives nearest .methods ts methods → rb.kind = .symbol .rightBrace →
      Derives nearest .declaration (kw :: name :: less :: parent :: lb :: (ts ++ [rb]))
        (.classDecl name (some (.var id parent)) methods)
  | funDecl {kw : Token} {ts : List Token} {f : Routine} : kw.kind = .keyword .funKw →
      Derives nearest .function ts f → Derives nearest .declaration (kw :: ts) (.function f)
  | varDeclaration {ts : List Token} {s : Stmt} :
      Derives nearest .varDecl ts s → Derives nearest .declaration ts s
  | statement {b : Bool} {ts : List Token} {s : Stmt} :
      Derives nearest (.statement b) ts s → Derives nearest .declaration ts s
  | noMethods : Derives nearest .methods [] []
  | moreMethods {fs ts : List Token} {f : Routine} {rest : List Routine} :
      Derives nearest .function fs f → Derives nearest .methods ts rest →
      Derives nearest .methods (fs ++ ts) (f :: rest)
  | function {name lp rp lb rb : Token} {ps ts params : List Token} {body : List Stmt} :
      name.kind = .identifier → lp.kind = .symbol .leftParen → Parameters ps params →
      rp.kind = .symbol .rightParen → lb.kind = .symbol .leftBrace →
      Derives nearest .declarations ts body → rb.kind = .symbol .rightBrace →
      Derives nearest .function (name :: lp :: (ps ++ rp :: lb :: (ts ++ [rb]))) ⟨name, params, body⟩
  | varDecl {kw name semi : Token} : kw.kind = .keyword .varKw → name.kind = .identifier →
      semi.kind = .symbol .semicolon →
      Derives nearest .varDecl [kw, name, semi] (.varDecl name none)
  | varInit {kw name eq semi : Token} {ts : List Token} {e : Expr} : kw.kind = .keyword .varKw →
      name.kind = .identifier → eq.kind = .symbol .equal → Derives nearest .expression ts e →
      semi.kind = .symbol .semicolon →
      Derives nearest .varDecl (kw :: name :: eq :: (ts ++ [semi])) (.varDecl name (some e))
  | exprStmt {semi : Token} {ts : List Token} {e : Expr} : Derives nearest .expression ts e →
      semi.kind = .symbol .semicolon → Derives nearest .exprStmt (ts ++ [semi]) (.expr e)
  | expression {ts : List Token} {s : Stmt} : Derives nearest .exprStmt ts s →
      Derives nearest (.statement false) ts s
  | forStmt {kw lp semi rp : Token} {is cs us ts : List Token} {init : Option Stmt}
      {cond increment : Option Expr} {b : Bool} {body : Stmt} :
      kw.kind = .keyword .forKw → lp.kind = .symbol .leftParen →
      Derives nearest .forInit is init → Derives nearest .optional cs cond →
      semi.kind = .symbol .semicolon → Derives nearest .optional us increment →
      rp.kind = .symbol .rightParen → Derives nearest (.statement b) ts body →
      Derives nearest (.statement b) (kw :: lp :: (is ++ (cs ++ semi :: (us ++ rp :: ts))))
        (forTree init cond increment body)
  | ifStmt {kw lp rp : Token} {cs ts : List Token} {cond : Expr} {b : Bool} {yes : Stmt} :
      kw.kind = .keyword .ifKw → lp.kind = .symbol .leftParen →
      Derives nearest .expression cs cond → rp.kind = .symbol .rightParen →
      Derives nearest (.statement b) ts yes →
      Derives nearest (.statement true) (kw :: lp :: (cs ++ rp :: ts)) (.branch cond yes none)
  | ifElseStmt {kw lp rp els : Token} {cs ts us : List Token} {cond : Expr} {a b : Bool}
      {yes no : Stmt} :
      kw.kind = .keyword .ifKw → lp.kind = .symbol .leftParen →
      Derives nearest .expression cs cond → rp.kind = .symbol .rightParen →
      Derives nearest (.statement a) ts yes → els.kind = .keyword .elseKw →
      Derives nearest (.statement b) us no → (nearest = true → a = false) →
      Derives nearest (.statement b) (kw :: lp :: (cs ++ rp :: (ts ++ els :: us)))
        (.branch cond yes (some no))
  | printStmt {kw semi : Token} {ts : List Token} {e : Expr} : kw.kind = .keyword .printKw →
      Derives nearest .expression ts e → semi.kind = .symbol .semicolon →
      Derives nearest (.statement false) (kw :: (ts ++ [semi])) (.print e)
  | returnStmt {kw semi : Token} {ts : List Token} {value : Option Expr} :
      kw.kind = .keyword .returnKw → Derives nearest .optional ts value →
      semi.kind = .symbol .semicolon →
      Derives nearest (.statement false) (kw :: (ts ++ [semi])) (.returnWith kw value)
  | whileStmt {kw lp rp : Token} {cs ts : List Token} {cond : Expr} {b : Bool} {body : Stmt} :
      kw.kind = .keyword .whileKw → lp.kind = .symbol .leftParen →
      Derives nearest .expression cs cond → rp.kind = .symbol .rightParen →
      Derives nearest (.statement b) ts body →
      Derives nearest (.statement b) (kw :: lp :: (cs ++ rp :: ts)) (.loop cond body)
  | breakStmt {kw semi : Token} : kw.kind = .keyword .breakKw → semi.kind = .symbol .semicolon →
      Derives nearest (.statement false) [kw, semi] (.breakLoop kw)
  | executeStmt {kw semi : Token} {ts : List Token} {path : Expr} :
      kw.kind = .keyword .executeKw → Derives nearest .expression ts path →
      semi.kind = .symbol .semicolon →
      Derives nearest (.statement false) (kw :: (ts ++ [semi])) (.execute kw path)
  | block {lb rb : Token} {ts : List Token} {body : List Stmt} : lb.kind = .symbol .leftBrace →
      Derives nearest .declarations ts body → rb.kind = .symbol .rightBrace →
      Derives nearest (.statement false) (lb :: (ts ++ [rb])) (.block body)
  | initVar {ts : List Token} {s : Stmt} : Derives nearest .varDecl ts s →
      Derives nearest .forInit ts (some s)
  | initExpr {ts : List Token} {s : Stmt} : Derives nearest .exprStmt ts s →
      Derives nearest .forInit ts (some s)
  | initNone {semi : Token} : semi.kind = .symbol .semicolon →
      Derives nearest .forInit [semi] none
  | absent : Derives nearest .optional [] none
  | present {ts : List Token} {e : Expr} : Derives nearest .expression ts e →
      Derives nearest .optional ts (some e)
  | assignName {name eq : Token} {ts : List Token} {value : Expr} (id : Nat) :
      name.kind = .identifier → eq.kind = .symbol .equal → Derives nearest .expression ts value →
      Derives nearest .expression (name :: eq :: ts) (.assign id name value)
  | assignProperty {dot name eq : Token} {os ts : List Token} {object value : Expr} :
      Derives nearest .call os object → dot.kind = .symbol .dot → name.kind = .identifier →
      eq.kind = .symbol .equal → Derives nearest .expression ts value →
      Derives nearest .expression (os ++ dot :: name :: eq :: ts) (.set object name value)
  | logicOr {ts : List Token} {e : Expr} : Derives nearest (.operation (some .or)) ts e →
      Derives nearest .expression ts e
  | operand {level : Level} {below : Option Level} {ts : List Token} {e : Expr} :
      Operands level below → Derives nearest (.operation below) ts e →
      Derives nearest (.operation (some level)) ts e
  | operation {level : Level} {below : Option Level} {op : Token} {tree : Expr → Token → Expr → Expr}
      {ls rs : List Token} {left right : Expr} :
      Derives nearest (.operation (some level)) ls left → Binary level op.kind tree →
      Operands level below → Derives nearest (.operation below) rs right →
      Derives nearest (.operation (some level)) (ls ++ op :: rs) (tree left op right)
  | unary {op : Token} {ts : List Token} {e : Expr} : Unary op.kind →
      Derives nearest .unary ts e → Derives nearest .unary (op :: ts) (.unary op e)
  | operandCall {ts : List Token} {e : Expr} : Derives nearest .call ts e →
      Derives nearest .unary ts e
  | callPrimary {ts : List Token} {e : Expr} : Derives nearest .primary ts e →
      Derives nearest .call ts e
  | callNone {lp rp : Token} {cs : List Token} {callee : Expr} : Derives nearest .call cs callee →
      lp.kind = .symbol .leftParen → rp.kind = .symbol .rightParen →
      Derives nearest .call (cs ++ [lp, rp]) (.call callee rp [])
  | callArgs {lp rp : Token} {cs ts : List Token} {callee : Expr} {args : List Expr} :
      Derives nearest .call cs callee → lp.kind = .symbol .leftParen →
      Derives nearest .arguments ts args → args.length ≤ 8 → rp.kind = .symbol .rightParen →
      Derives nearest .call (cs ++ lp :: (ts ++ [rp])) (.call callee rp args)
  | property {dot name : Token} {os : List Token} {object : Expr} :
      Derives nearest .call os object → dot.kind = .symbol .dot → name.kind = .identifier →
      Derives nearest .call (os ++ [dot, name]) (.get object name)
  | oneArgument {ts : List Token} {e : Expr} : Derives nearest .expression ts e →
      Derives nearest .arguments ts [e]
  | moreArguments {comma : Token} {es ts : List Token} {e : Expr} {rest : List Expr} :
      Derives nearest .expression es e → comma.kind = .symbol .comma →
      Derives nearest .arguments ts rest →
      Derives nearest .arguments (es ++ comma :: ts) (e :: rest)
  | literal {t : Token} {v : Literal} : Writes t.kind v →
      Derives nearest .primary [t] (.literal v)
  | thisRef {t : Token} (id : Nat) : t.kind = .keyword .thisKw →
      Derives nearest .primary [t] (.thisRef id t)
  | var {t : Token} (id : Nat) : t.kind = .identifier → Derives nearest .primary [t] (.var id t)
  | group {lp rp : Token} {ts : List Token} {e : Expr} : lp.kind = .symbol .leftParen →
      Derives nearest .expression ts e → rp.kind = .symbol .rightParen →
      Derives nearest .primary (lp :: (ts ++ [rp])) (.group e)
  | superRef {kw dot method : Token} (id : Nat) : kw.kind = .keyword .superKw →
      dot.kind = .symbol .dot → method.kind = .identifier →
      Derives nearest .primary [kw, dot, method] (.superRef id kw method)

theorem Binary.tree_eq {level : Level} {k : Kind} {tree : Expr → Token → Expr → Expr} (h : Binary level k tree) :
    tree = .logical ∨ tree = .binary := by
  cases h <;> simp

/-! ## The tables of the parser -/

theorem binary_iff {level : Level} {k : Kind} {tree : Expr → Token → Expr → Expr} :
    Binary level k tree ↔ level.has k = true ∧ tree = level.join := by
  constructor
  · rintro ⟨⟩ <;> exact ⟨rfl, rfl⟩
  · rintro ⟨hk, rfl⟩
    cases level with
    | or | and =>
      cases k with
      | keyword w => cases w <;> cases hk <;> constructor
      | _ => cases hk
    | _ =>
      cases k with
      | symbol s => cases s <;> cases hk <;> constructor
      | _ => cases hk

theorem operands_iff {level : Level} {below : Option Level} : Operands level below ↔ below = level.tighter? := by
  constructor
  · rintro ⟨⟩ <;> rfl
  · rintro rfl
    cases level <;> constructor

theorem unary_iff {k : Kind} : Unary k ↔ isUnary k = true := by
  constructor
  · rintro ⟨⟩ <;> rfl
  · intro hk
    cases k with
    | symbol s => cases s <;> cases hk <;> constructor
    | _ => cases hk

theorem forTree_eq (init : Option Stmt) (cond increment : Option Expr) (body : Stmt) :
    forTree init cond increment body = forLoop init cond increment body := by
  cases init <;> cases cond <;> cases increment <;> rfl

end Grammar
end Lox
