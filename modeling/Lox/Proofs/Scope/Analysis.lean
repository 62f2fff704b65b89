import Lox.Proofs.Nodes
import Lox.Proofs.Scope.Visits

/-!
# What the analysis keeps and records

An `Outline` of a scope tells which names it has declared and which of them it has given a value.
Expressions leave all outlines alone, and a statement adds its names to the innermost one. There is
one visit for each identity.
-/

namespace Lox
namespace Scoping

/-- The names of a scope: declared or not, and if so whether defined. -/
abbrev Outline := String → Option Bool

def Scope.outline (scope : Scope) : Outline := fun name => (scope.get? name).map (·.defined)

def outlines (scopes : List Scope) : List Outline := scopes.map Scope.outline

namespace Outline

def empty : Outline := fun _ => none

/-- What a scope says once it says `defined` of a name. -/
def update (o : Outline) (name : String) (defined : Bool) : Outline :=
  fun x => if x = name then some defined else o x

/-- Declares a name in the innermost scope, if it is not there. -/
def declare (name : String) : List Outline → List Outline
  | [] => []
  | o :: os => (if (o name).isSome then o else o.update name false) :: os

/-- Defines a name in the innermost scope, if it is there. -/
def define (name : String) : List Outline → List Outline
  | [] => []
  | o :: os => (if (o name).isSome then o.update name true else o) :: os

/-- Declares and defines a name in the innermost scope. -/
def bind (name : String) : List Outline → List Outline
  | [] => []
  | o :: os => o.update name true :: os

def bindAll (names : List String) (os : List Outline) : List Outline :=
  names.foldl (fun os name => bind name os) os

theorem define_declare (name : String) (os : List Outline) :
    define name (declare name os) = bind name os := by
  cases os with
  | nil => rfl
  | cons o os =>
    by_cases h : (o name).isSome = true
    · simp [declare, define, bind, h]
    · simp only [declare, define, bind, h, if_false, Bool.false_eq_true]
      congr 1
      funext x
      by_cases hx : x = name <;> simp [update, hx]

theorem bindAll_append (xs ys : List String) (os : List Outline) :
    bindAll (xs ++ ys) os = bindAll ys (bindAll xs os) :=
  List.foldl_append

theorem bind_tail (name : String) (os : List Outline) : (bind name os).tail = os.tail := by
  cases os <;> rfl

@[simp] theorem bindAll_tail (names : List String) (os : List Outline) :
    (bindAll names os).tail = os.tail := by
  induction names generalizing os with
  | nil => rfl
  | cons name rest ih => exact (ih _).trans (bind_tail name os)

end Outline

theorem outline_insert (scope : Scope) (name : String) (b : Binding) :
    Scope.outline (scope.insert name b) = scope.outline.update name b.defined := by
  funext x
  by_cases h : x = name
  · simp [Scope.outline, Outline.update, h]
  · simp [Scope.outline, Outline.update, h, Table.get?_insert_of_ne scope (Ne.symm h)]

namespace Analysis

@[simp] theorem scopes_failIf (a : Analysis) (cond : Bool) (t : Token) (fault : ScopeFault) :
    (a.failIf cond t fault).scopes = a.scopes := by
  unfold failIf
  split <;> rfl

@[simp] theorem scopes_checkSuperclass (a : Analysis) (name : Token) (superclass : Expr) :
    (checkSuperclass name superclass a).scopes = a.scopes := by
  unfold checkSuperclass
  split
  · exact scopes_failIf _ _ _ _
  · rfl

theorem outlines_declare (a : Analysis) (name : Token) :
    outlines (a.declare name).scopes = Outline.declare name.lexeme (outlines a.scopes) := by
  unfold declare
  cases hs : a.scopes with
  | nil => simp [hs, outlines, Outline.declare]
  | cons scope rest =>
    by_cases h : scope.has name.lexeme = true
    · have ho : (scope.outline name.lexeme).isSome = true := by simpa [Scope.outline, Table.has] using h
      simp [h, ho, fail, hs, outlines, Outline.declare]
    · have ho : ¬ (scope.outline name.lexeme).isSome = true := by simpa [Scope.outline, Table.has] using h
      simp [h, ho, outlines, Outline.declare, outline_insert]

theorem outlines_define (a : Analysis) (name : Token) :
    outlines (a.define name).scopes = Outline.define name.lexeme (outlines a.scopes) := by
  unfold define
  cases hs : a.scopes with
  | nil => simp [hs, outlines, Outline.define]
  | cons scope rest =>
    cases hb : scope.get? name.lexeme with
    | none =>
      have ho : (scope.outline name.lexeme).isSome = false := by simp [Scope.outline, hb]
      simp [hb, ho, hs, outlines, Outline.define]
    | some b =>
      have ho : (scope.outline name.lexeme).isSome = true := by simp [Scope.outline, hb]
      simp [hb, ho, outlines, Outline.define, outline_insert]

/-- A name that is declared and then defined has a value, whether it was there before or not. -/
theorem outlines_bind (a : Analysis) (name : Token) :
    outlines ((a.declare name).define name).scopes =
      Outline.bind name.lexeme (outlines a.scopes) := by
  rw [outlines_define, outlines_declare, Outline.define_declare]

theorem outlines_openScope (a : Analysis) :
    outlines a.openScope.scopes = Outline.empty :: outlines a.scopes := rfl

theorem outlines_closeScope (a : Analysis) :
    outlines a.closeScope.scopes = (outlines a.scopes).tail := by
  unfold closeScope
  cases hs : a.scopes <;> simp [hs, outlines]

theorem outlines_provide (a : Analysis) (name : String) (line : Nat) :
    outlines (a.provide name line).scopes = Outline.bind name (outlines a.scopes) := by
  unfold provide
  cases hs : a.scopes with
  | nil => simp [hs, outlines, Outline.bind]
  | cons scope rest => simp [outlines, Outline.bind, outline_insert]

theorem outlines_declareAll (a : Analysis) (names : List Token) :
    outlines (a.declareAll names).scopes =
      Outline.bindAll (names.map (·.lexeme)) (outlines a.scopes) := by
  induction names generalizing a with
  | nil => rfl
  | cons name rest ih => exact (ih _).trans (by rw [outlines_bind]; rfl)

/-- Marking a name as used changes no outline. -/
theorem outlines_markUsed {name : String} {scopes scopes' : List Scope} {depth : Nat}
    (h : markUsed name scopes = some (depth, scopes')) : outlines scopes' = outlines scopes := by
  induction scopes generalizing depth scopes' with
  | nil => cases h
  | cons scope rest ih =>
    unfold markUsed at h
    cases hb : scope.get? name with
    | some b =>
      simp only [hb, Option.some.injEq, Prod.mk.injEq] at h
      obtain ⟨-, rfl⟩ := h
      have ho : scope.outline name = some b.defined := by simp [Scope.outline, hb]
      simp only [outlines, List.map_cons, outline_insert, List.cons.injEq, and_true]
      funext x
      by_cases hx : x = name <;> simp [Outline.update, hx, ho]
    | none =>
      simp only [hb, Option.map_eq_some_iff, Prod.mk.injEq, Prod.exists] at h
      obtain ⟨depth', rest', hr, -, rfl⟩ := h
      simpa [outlines] using ih hr

theorem outlines_refer (a : Analysis) (id : Nat) (name : String) :
    outlines (a.refer id name).scopes = outlines a.scopes := by
  unfold refer
  split
  case h_1 => rfl
  case h_2 h => exact outlines_markUsed h

end Analysis
end Scoping

open Scoping Analysis

/-! ## Outlines -/

mutual

/-- An expression declares nothing. -/
theorem Expr.outlines_resolve (ctx : Context) (e : Expr) (a : Analysis) :
    outlines (e.resolve ctx a).scopes = outlines a.scopes := by
  cases e with
  | literal => rfl
  | group e => exact e.outlines_resolve ctx a
  | unary _ e => exact e.outlines_resolve ctx a
  | binary l _ r => exact (r.outlines_resolve ctx _).trans (l.outlines_resolve ctx a)
  | logical l _ r => exact (r.outlines_resolve ctx _).trans (l.outlines_resolve ctx a)
  | var id name =>
    rw [Expr.resolve, outlines_refer, scopes_failIf]
  | assign id name e =>
    rw [Expr.resolve, outlines_refer]
    exact e.outlines_resolve ctx a
  | call callee _ args =>
    exact (Expr.outlines_resolveAll ctx args _).trans (callee.outlines_resolve ctx a)
  | get object _ => exact object.outlines_resolve ctx a
  | set object _ e => exact (object.outlines_resolve ctx _).trans (e.outlines_resolve ctx a)
  | thisRef id keyword =>
    rw [Expr.resolve]
    split
    · rfl
    · exact outlines_refer a id _
  | superRef id keyword method =>
    rw [Expr.resolve]
    split
    · rfl
    · rfl
    · exact outlines_refer a id _

theorem Expr.outlines_resolveAll (ctx : Context) (es : List Expr) (a : Analysis) :
    outlines (Expr.resolveAll ctx es a).scopes = outlines a.scopes := by
  cases es with
  | nil => rfl
  | cons e rest => exact (Expr.outlines_resolveAll ctx rest _).trans (e.outlines_resolve ctx a)

end

theorem Expr.outlines_resolveOption (ctx : Context) (e : Option Expr) (a : Analysis) :
    outlines (Expr.resolveOption ctx e a).scopes = outlines a.scopes := by
  cases e with
  | none => rfl
  | some e => exact e.outlines_resolve ctx a

mutual

/-- The names that a statement declares in the scope it stands in. -/
def Stmt.declared : Stmt → List String
  | .varDecl name _ => [name.lexeme]
  | .function decl => [decl.name.lexeme]
  | .classDecl name _ _ => [name.lexeme]
  | .branch _ yes none => yes.declared
  | .branch _ yes (some no) => yes.declared ++ no.declared
  | .loop _ body => body.declared
  | _ => []

def Stmt.declaredAll : List Stmt → List String
  | [] => []
  | s :: rest => s.declared ++ Stmt.declaredAll rest

end

mutual

/-- A statement defines the names that it declares, and no scope but the innermost changes. -/
theorem Stmt.outlines_resolve (ctx : Context) (s : Stmt) (a : Analysis) :
    outlines (s.resolve ctx a).scopes = Outline.bindAll s.declared (outlines a.scopes) := by
  cases s with
  | expr e => exact e.outlines_resolve ctx a
  | print e => exact e.outlines_resolve ctx a
  | varDecl name init =>
    rw [Stmt.resolve, outlines_define, Expr.outlines_resolveOption, outlines_declare,
      Outline.define_declare]
    rfl
  | block body =>
    rw [Stmt.resolve, outlines_closeScope, Stmt.outlines_resolveAll, outlines_openScope,
      Outline.bindAll_tail]
    rfl
  | branch cond yes no =>
    cases no with
    | none =>
      rw [Stmt.resolve, Stmt.outlines_resolve, Expr.outlines_resolve]
      rfl
    | some no =>
      rw [Stmt.resolve, Stmt.outlines_resolve, Stmt.outlines_resolve, Expr.outlines_resolve,
        Stmt.declared, Outline.bindAll_append]
  | loop cond body =>
    rw [Stmt.resolve, Stmt.outlines_resolve, Expr.outlines_resolve]
    rfl
  | breakLoop keyword => rw [Stmt.resolve, scopes_failIf]; rfl
  | function decl =>
    rw [Stmt.resolve, Routine.outlines_resolve, outlines_bind]
    rfl
  | returnWith keyword value =>
    rw [Stmt.resolve, Expr.outlines_resolveOption, scopes_failIf, scopes_failIf]
    rfl
  | classDecl name superclass methods =>
    cases superclass with
    | none =>
      rw [Stmt.resolve, outlines_closeScope, Routine.outlines_resolveMethods, outlines_provide,
        outlines_openScope, outlines_bind]
      rfl
    | some superclass =>
      rw [Stmt.resolve, outlines_closeScope, outlines_closeScope, Routine.outlines_resolveMethods,
        outlines_provide, outlines_openScope, outlines_provide, outlines_openScope,
        Expr.outlines_resolve, scopes_checkSuperclass, outlines_bind]
      rfl
  | execute keyword path => exact path.outlines_resolve ctx a

theorem Stmt.outlines_resolveAll (ctx : Context) (ss : List Stmt) (a : Analysis) :
    outlines (Stmt.resolveAll ctx ss a).scopes =
      Outline.bindAll (Stmt.declaredAll ss) (outlines a.scopes) := by
  cases ss with
  | nil => rfl
  | cons s rest =>
    rw [Stmt.resolveAll, Stmt.outlines_resolveAll, s.outlines_resolve, Stmt.declaredAll,
      Outline.bindAll_append]

theorem Routine.outlines_resolve (ctx : Context) (r : Routine) (a : Analysis) :
    outlines (r.resolve ctx a).scopes = outlines a.scopes := by
  cases r with
  | mk name params body =>
    rw [Routine.resolve, outlines_closeScope, Stmt.outlines_resolveAll, outlines_declareAll,
      outlines_openScope, Outline.bindAll_tail, Outline.bindAll_tail]
    rfl

theorem Routine.outlines_resolveMethods (ctx : Context) (rs : List Routine) (a : Analysis) :
    outlines (Routine.resolveMethods ctx rs a).scopes = outlines a.scopes := by
  cases rs with
  | nil => rfl
  | cons r rest =>
    rw [Routine.resolveMethods, Routine.outlines_resolveMethods, r.outlines_resolve]

end

/-! ## Identities -/

namespace Scoping

/-- The identities that visits are about. -/
def ids (vs : List Visit) : List Nat := vs.map (·.ref.id)

theorem ids_append (vs ws : List Visit) : ids (vs ++ ws) = ids vs ++ ids ws := List.map_append

end Scoping

mutual

/-- There is one visit for each identity in the tree. -/
theorem Expr.ids_visits (ctx : Context) (sites : List Site) (e : Expr) (a : Analysis) :
    (ids (e.visits ctx sites a)).Perm e.nodes := by
  cases e with
  | literal => exact .nil
  | group e => exact e.ids_visits ctx sites a
  | unary _ e => exact e.ids_visits ctx sites a
  | binary l _ r =>
    rw [Expr.visits, ids_append]
    exact (l.ids_visits ctx sites a).append (r.ids_visits ctx sites _)
  | logical l _ r =>
    rw [Expr.visits, ids_append]
    exact (l.ids_visits ctx sites a).append (r.ids_visits ctx sites _)
  | var id name => exact .refl _
  | assign id name e =>
    rw [Expr.visits, ids_append]
    exact (e.ids_visits ctx sites a).append (.refl _)
  | call callee _ args =>
    rw [Expr.visits, ids_append]
    exact (callee.ids_visits ctx sites a).append (Expr.ids_visitsAll ctx sites args _)
  | get object _ => exact object.ids_visits ctx sites a
  | set object _ e =>
    rw [Expr.visits, ids_append]
    exact ((e.ids_visits ctx sites a).append (object.ids_visits ctx sites _)).trans
      List.perm_append_comm
  | thisRef id keyword => exact .refl _
  | superRef id keyword method => exact .refl _

theorem Expr.ids_visitsAll (ctx : Context) (sites : List Site) (es : List Expr) (a : Analysis) :
    (ids (Expr.visitsAll ctx sites es a)).Perm (Expr.nodesAll es) := by
  cases es with
  | nil => exact .nil
  | cons e rest =>
    rw [Expr.visitsAll, ids_append]
    exact (e.ids_visits ctx sites a).append (Expr.ids_visitsAll ctx sites rest _)

end

theorem Expr.ids_visitsOption (ctx : Context) (sites : List Site) (e : Option Expr) (a : Analysis) :
    (ids (Expr.visitsOption ctx sites e a)).Perm (Expr.nodesOption e) := by
  cases e with
  | none => exact .nil
  | some e => exact e.ids_visits ctx sites a

mutual

theorem Stmt.ids_visits (ctx : Context) (sites : List Site) (s : Stmt) (a : Analysis) :
    (ids (s.visits ctx sites a)).Perm s.nodes := by
  cases s with
  | expr e => exact e.ids_visits ctx sites a
  | print e => exact e.ids_visits ctx sites a
  | varDecl name init => exact Expr.ids_visitsOption ctx sites init _
  | block body => exact Stmt.ids_visitsAll ctx _ body _
  | branch cond yes no =>
    cases no with
    | none =>
      rw [Stmt.visits, ids_append]
      exact (cond.ids_visits ctx sites a).append (yes.ids_visits ctx sites _)
    | some no =>
      rw [Stmt.visits, ids_append, ids_append]
      exact (cond.ids_visits ctx sites a).append
        ((yes.ids_visits ctx sites _).append (no.ids_visits ctx sites _))
  | loop cond body =>
    rw [Stmt.visits, ids_append]
    exact (cond.ids_visits ctx sites a).append (body.ids_visits _ sites _)
  | breakLoop keyword => exact .nil
  | function decl => exact decl.ids_visits _ sites _
  | returnWith keyword value => exact Expr.ids_visitsOption ctx sites value _
  | classDecl name superclass methods =>
    cases superclass with
    | none => exact Routine.ids_visitsMethods _ sites methods _
    | some superclass =>
      rw [Stmt.visits, ids_append]
      exact (superclass.ids_visits _ sites _).append (Routine.ids_visitsMethods _ _ methods _)
  | execute keyword path => exact path.ids_visits ctx sites a

theorem Stmt.ids_visitsAll (ctx : Context) (sites : List Site) (ss : List Stmt) (a : Analysis) :
    (ids (Stmt.visitsAll ctx sites ss a)).Perm (Stmt.nodesAll ss) := by
  cases ss with
  | nil => exact .nil
  | cons s rest =>
    rw [Stmt.visitsAll, ids_append]
    exact (s.ids_visits ctx sites a).append (Stmt.ids_visitsAll ctx sites rest _)

theorem Routine.ids_visits (ctx : Context) (sites : List Site) (r : Routine) (a : Analysis) :
    (ids (r.visits ctx sites a)).Perm r.nodes := by
  cases r with
  | mk name params body => exact Stmt.ids_visitsAll _ _ body _

theorem Routine.ids_visitsMethods (ctx : Context) (sites : List Site) (rs : List Routine)
    (a : Analysis) : (ids (Routine.visitsMethods ctx sites rs a)).Perm (Routine.nodesAll rs) := by
  cases rs with
  | nil => exact .nil
  | cons r rest =>
    rw [Routine.visitsMethods, ids_append]
    exact (r.ids_visits _ _ a).append (Routine.ids_visitsMethods ctx sites rest _)

end

end Lox
