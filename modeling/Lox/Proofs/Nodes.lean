import Mathlib
import Lox.Proofs.Grammar

/-!
# The identities in a tree

`nodes` lists the identities of the expressions of a tree that name a variable. A parser that hands
out each identity once gives every tree it reads a stretch of identities of its own.
-/

namespace Lox

mutual

def Expr.nodes : Expr → List Nat
  | .literal _ => []
  | .group e => e.nodes
  | .unary _ e => e.nodes
  | .binary l _ r => l.nodes ++ r.nodes
  | .logical l _ r => l.nodes ++ r.nodes
  | .var id _ => [id]
  | .assign id _ e => e.nodes ++ [id]
  | .call callee _ args => callee.nodes ++ Expr.nodesAll args
  | .get object _ => object.nodes
  | .set object _ e => object.nodes ++ e.nodes
  | .thisRef id _ => [id]
  | .superRef id _ _ => [id]

def Expr.nodesAll : List Expr → List Nat
  | [] => []
  | e :: rest => e.nodes ++ Expr.nodesAll rest

end

def Expr.nodesOption : Option Expr → List Nat
  | none => []
  | some e => e.nodes

mutual

def Stmt.nodes : Stmt → List Nat
  | .expr e => e.nodes
  | .print e => e.nodes
  | .varDecl _ init => Expr.nodesOption init
  | .block body => Stmt.nodesAll body
  | .branch cond yes none => cond.nodes ++ yes.nodes
  | .branch cond yes (some no) => cond.nodes ++ (yes.nodes ++ no.nodes)
  | .loop cond body => cond.nodes ++ body.nodes
  | .breakLoop _ => []
  | .function decl => decl.nodes
  | .returnWith _ value => Expr.nodesOption value
  | .classDecl _ superclass methods => Expr.nodesOption superclass ++ Routine.nodesAll methods
  | .execute _ path => path.nodes

def Stmt.nodesAll : List Stmt → List Nat
  | [] => []
  | s :: rest => s.nodes ++ Stmt.nodesAll rest

def Routine.nodes : Routine → List Nat
  | ⟨_, _, body⟩ => Stmt.nodesAll body

def Routine.nodesAll : List Routine → List Nat
  | [] => []
  | r :: rest => r.nodes ++ Routine.nodesAll rest

end

def Stmt.nodesOption : Option Stmt → List Nat
  | none => []
  | some s => s.nodes

/-- The identities in what a rule of the grammar builds. -/
def Grammar.Rule.nodes : (r : Rule) → r.Tree → List Nat
  | .declarations, t => Stmt.nodesAll t
  | .declaration, t | .varDecl, t | .exprStmt, t | .statement _, t => Stmt.nodes t
  | .methods, t => Routine.nodesAll t
  | .function, t => Routine.nodes t
  | .forInit, t => Stmt.nodesOption t
  | .optional, t => Expr.nodesOption t
  | .arguments, t => Expr.nodesAll t
  | .expression, t | .operation _, t | .call, t | .primary, t => Expr.nodes t

/-! ## Trees up to identities -/

mutual

/-- The tree with every identity forgotten. -/
def Expr.erase : Expr → Expr
  | .literal v => .literal v
  | .group e => .group e.erase
  | .unary op e => .unary op e.erase
  | .binary l op r => .binary l.erase op r.erase
  | .logical l op r => .logical l.erase op r.erase
  | .var _ name => .var 0 name
  | .assign _ name e => .assign 0 name e.erase
  | .call callee paren args => .call callee.erase paren (Expr.eraseAll args)
  | .get object name => .get object.erase name
  | .set object name e => .set object.erase name e.erase
  | .thisRef _ keyword => .thisRef 0 keyword
  | .superRef _ keyword method => .superRef 0 keyword method

def Expr.eraseAll : List Expr → List Expr
  | [] => []
  | e :: rest => e.erase :: Expr.eraseAll rest

end

def Expr.eraseOption : Option Expr → Option Expr
  | none => none
  | some e => some e.erase

mutual

def Stmt.erase : Stmt → Stmt
  | .expr e => .expr e.erase
  | .print e => .print e.erase
  | .varDecl name init => .varDecl name (Expr.eraseOption init)
  | .block body => .block (Stmt.eraseAll body)
  | .branch cond yes none => .branch cond.erase yes.erase none
  | .branch cond yes (some no) => .branch cond.erase yes.erase (some no.erase)
  | .loop cond body => .loop cond.erase body.erase
  | .breakLoop keyword => .breakLoop keyword
  | .function decl => .function decl.erase
  | .returnWith keyword value => .returnWith keyword (Expr.eraseOption value)
  | .classDecl name superclass methods =>
    .classDecl name (Expr.eraseOption superclass) (Routine.eraseAll methods)
  | .execute keyword path => .execute keyword path.erase

def Stmt.eraseAll : List Stmt → List Stmt
  | [] => []
  | s :: rest => s.erase :: Stmt.eraseAll rest

def Routine.erase : Routine → Routine
  | ⟨name, params, body⟩ => ⟨name, params, Stmt.eraseAll body⟩

def Routine.eraseAll : List Routine → List Routine
  | [] => []
  | r :: rest => r.erase :: Routine.eraseAll rest

end

def Stmt.eraseOption : Option Stmt → Option Stmt
  | none => none
  | some s => some s.erase

def Grammar.Rule.erase : (r : Rule) → r.Tree → r.Tree
  | .declarations, t => Stmt.eraseAll t
  | .declaration, t | .varDecl, t | .exprStmt, t | .statement _, t => Stmt.erase t
  | .methods, t => Routine.eraseAll t
  | .function, t => Routine.erase t
  | .forInit, t => Stmt.eraseOption t
  | .optional, t => Expr.eraseOption t
  | .arguments, t => Expr.eraseAll t
  | .expression, t | .operation _, t | .call, t | .primary, t => Expr.erase t

/-! ## New identities -/

/-- Different identities from `low` on and below `high`. -/
structure Fresh (low high : Nat) (ids : List Nat) : Prop where
  nodup : ids.Nodup
  low_le : ∀ i ∈ ids, low ≤ i
  lt_high : ∀ i ∈ ids, i < high

namespace Fresh

variable {a b c d : Nat} {xs ys zs : List Nat}

theorem nil (a b : Nat) : Fresh a b [] := ⟨List.nodup_nil, by simp, by simp⟩

theorem single (a : Nat) : Fresh a (a + 1) [a] := ⟨List.nodup_singleton a, by simp, by simp⟩

theorem widen (h : Fresh b c xs) (hab : a ≤ b) (hcd : c ≤ d) : Fresh a d xs where
  nodup := h.nodup
  low_le i hi := Nat.le_trans hab (h.low_le i hi)
  lt_high i hi := Nat.lt_of_lt_of_le (h.lt_high i hi) hcd

theorem perm (h : Fresh a b xs) (hp : xs.Perm ys) : Fresh a b ys where
  nodup := hp.nodup_iff.1 h.nodup
  low_le i hi := h.low_le i (hp.mem_iff.2 hi)
  lt_high i hi := h.lt_high i (hp.mem_iff.2 hi)

/-- Identities that were handed out one after the other differ. -/
theorem append (hx : Fresh a b xs) (hy : Fresh b c ys) (hab : a ≤ b) (hbc : b ≤ c) :
    Fresh a c (xs ++ ys) where
  nodup := by
    refine List.nodup_append.2 ⟨hx.nodup, hy.nodup, ?_⟩
    intro i hi j hj
    have := hx.lt_high i hi
    have := hy.low_le j hj
    omega
  low_le i hi := by
    rcases List.mem_append.1 hi with hi | hi
    · exact hx.low_le i hi
    · exact Nat.le_trans hab (hy.low_le i hi)
  lt_high i hi := by
    rcases List.mem_append.1 hi with hi | hi
    · exact Nat.lt_of_lt_of_le (hx.lt_high i hi) hbc
    · exact hy.lt_high i hi

end Fresh
end Lox
