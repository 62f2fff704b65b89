import Lox.Proofs.Scope.Events

/-!
# A walk with registers

The analysis hands down what encloses a place. A walk can also keep that in registers, which it sets when it enters a
loop, a function or a class and puts back when it leaves, with a count in the place of the loops. And when
a scope is closed, its bindings may come out in any order. `Stmt.walk` is that walk. It does what the analysis
does, whatever the orders are, and every statement leaves the registers as it found them.
-/

namespace Lox
namespace Scoping

/-! ## The order of bindings -/

/-- By line and then by name. -/
def keyLe (k l : Nat × String) : Bool :=
  k.1 < l.1 || (k.1 = l.1 && !decide (l.2 < k.2))

theorem keyLe_iff {k l : Nat × String} :
    keyLe k l = true ↔ k.1 < l.1 ∨ k.1 = l.1 ∧ k.2 ≤ l.2 := by
  simp only [keyLe, Bool.or_eq_true, Bool.and_eq_true, decide_eq_true_eq, Bool.not_eq_true',
    decide_eq_false_iff_not, String.not_lt]

namespace Analysis

/-- Only lines and names count. -/
theorem unused_eq (scope : Scope) :
    unused scope = (((scope.filter (!·.2.used)).map fun (name, b) => (b.line, name)).mergeSort keyLe).map
      fun (line, name) => ⟨line, .unusedVariable name⟩ := by
  rw [← List.map_mergeSort (r := fun x y : String × Binding =>
    x.2.line < y.2.line || (x.2.line = y.2.line && !decide (y.1 < x.1)))]
  · rw [List.map_map]
    rfl
  · intro x _ y _
    rfl

/-- In whatever order the bindings of a scope come, those that nothing mentions are told in the same. -/
theorem unused_perm {scope scope' : Scope} (h : scope'.Perm scope) : unused scope' = unused scope := by
  have htrans : ∀ a b c, keyLe a b = true → keyLe b c = true → keyLe a c = true := by
    intro a b c hab hbc
    rw [keyLe_iff] at hab hbc ⊢
    rcases hab with hab | ⟨hab, hn⟩ <;> rcases hbc with hbc | ⟨hbc, hn'⟩
    · exact .inl (hab.trans hbc)
    · exact .inl (hbc ▸ hab)
    · exact .inl (hab ▸ hbc)
    · exact .inr ⟨hab.trans hbc, String.le_trans hn hn'⟩
  have htotal : ∀ a b, (keyLe a b || keyLe b a) = true := by
    intro a b
    rw [Bool.or_eq_true, keyLe_iff, keyLe_iff]
    rcases Nat.lt_trichotomy a.1 b.1 with hlt | heq | hgt
    · exact .inl (.inl hlt)
    · exact (String.le_total a.2 b.2).imp (fun h => .inr ⟨heq, h⟩) fun h => .inr ⟨heq.symm, h⟩
    · exact .inr (.inl hgt)
  have hanti : ∀ a b, keyLe a b = true → keyLe b a = true → a = b := by
    intro a b hab hba
    rw [keyLe_iff] at hab hba
    rcases hab with hab | ⟨hab, hn⟩ <;> rcases hba with hba | ⟨hba, hn'⟩
    · exact absurd hab hba.asymm
    · exact absurd hba hab.ne'
    · exact absurd hab hba.ne'
    · exact Prod.ext hab (String.le_antisymm hn hn')
  rw [unused_eq, unused_eq]
  refine congrArg _ (List.Perm.eq_of_pairwise (fun a b _ _ => hanti a b)
    (List.pairwise_mergeSort htrans htotal _) (List.pairwise_mergeSort htrans htotal _) ?_)
  have hkeys := (h.filter (!·.2.used)).map fun x : String × Binding => (x.2.line, x.1)
  exact (List.mergeSort_perm _ _).trans (hkeys.trans (List.mergeSort_perm _ _).symm)

end Analysis

/-! ## The walk -/

/-- The bindings of the scope that is closed after so many others, as they come out. -/
abbrev Order := Nat → Scope → Scope

/-- No binding is lost and none is made up. -/
def Order.Fair (order : Order) : Prop := ∀ k scope, (order k scope).Perm scope

structure Walker where
  analysis : Analysis
  routine : RoutineRole := .topLevel
  inClass : ClassRole := .outside
  /-- How many loops there are around the place within its function. -/
  loops : Nat := 0
  /-- How many scopes have been closed. -/
  closed : Nat := 0

namespace Walker

def start (distances : Distances) : Walker where
  analysis := { distances := distances }

def context (w : Walker) : Context := ⟨w.routine, w.inClass, decide (0 < w.loops)⟩

def on (f : Analysis → Analysis) (w : Walker) : Walker := { w with analysis := f w.analysis }

def resolve (e : Expr) (w : Walker) : Walker := w.on (e.resolve w.context)

def resolveOption (e : Option Expr) (w : Walker) : Walker := w.on (Expr.resolveOption w.context e)

def closeScope (order : Order) (w : Walker) : Walker :=
  let a := w.analysis
  match a.scopes with
  | [] => { w with closed := w.closed + 1 }
  | scope :: rest => { w with
      analysis := { a with
        scopes := rest
        warnings := a.warnings ++ Analysis.unused (order w.closed scope) }
      closed := w.closed + 1 }

end Walker
end Scoping

open Scoping

mutual

def Stmt.walk (order : Order) : Stmt → Walker → Walker
  | .expr e, w => w.resolve e
  | .print e, w => w.resolve e
  | .varDecl name init, w => ((w.on (·.declare name)).resolveOption init).on (·.define name)
  | .block body, w => (Stmt.walkAll order body (w.on .openScope)).closeScope order
  | .branch cond yes none, w => yes.walk order (w.resolve cond)
  | .branch cond yes (some no), w => no.walk order (yes.walk order (w.resolve cond))
  | .loop cond body, w =>
    let w := w.resolve cond
    let w := body.walk order { w with loops := w.loops + 1 }
    { w with loops := w.loops - 1 }
  | .breakLoop keyword, w => w.on (·.failIf (w.loops = 0) keyword .breakOutsideLoop)
  | .function decl, w =>
    decl.walk order .function (w.on fun a => (a.declare decl.name).define decl.name)
  | .returnWith keyword value, w =>
    let w := w.on (·.failIf (w.routine = .topLevel) keyword .returnOutsideFunction)
    let w := w.on
      (·.failIf (value.isSome && w.routine = .initializer) keyword .initializerReturnsValue)
    w.resolveOption value
  | .classDecl name none methods, w =>
    let enclosing := w.inClass
    let w := { w with inClass := .plain }.on fun a => (a.declare name).define name
    let w := w.on fun a => a.openScope.provide "this" name.line
    let w := (Routine.walkMethods order methods w).closeScope order
    { w with inClass := enclosing }
  | .classDecl name (some superclass) methods, w =>
    let enclosing := w.inClass
    let w := { w with inClass := .plain }.on fun a => (a.declare name).define name
    let w := { w.on (checkSuperclass name superclass) with inClass := .derived }
    let w := (w.resolve superclass).on fun a => a.openScope.provide "super" name.line
    let w := w.on fun a => a.openScope.provide "this" name.line
    let w := ((Routine.walkMethods order methods w).closeScope order).closeScope order
    { w with inClass := enclosing }
  | .execute _ path, w => w.resolve path

def Stmt.walkAll (order : Order) : List Stmt → Walker → Walker
  | [], w => w
  | s :: rest, w => Stmt.walkAll order rest (s.walk order w)

def Routine.walk (order : Order) (role : RoutineRole) : Routine → Walker → Walker
  | ⟨_, params, body⟩, w =>
    let enclosing := w
    let w := { w with routine := role, loops := 0 }.on fun a => a.openScope.declareAll params
    let w := (Stmt.walkAll order body w).closeScope order
    { w with routine := enclosing.routine, loops := enclosing.loops }

def Routine.walkMethods (order : Order) : List Routine → Walker → Walker
  | [], w => w
  | r :: rest, w => Routine.walkMethods order rest (r.walk order (methodRole r.name) w)

end

/-! ## The registers are put back -/

theorem Scoping.Walker.closeScope_eq {order : Order} (h : order.Fair) (w : Walker) :
    w.closeScope order = { w with analysis := w.analysis.closeScope, closed := w.closed + 1 } := by
  unfold Walker.closeScope Analysis.closeScope
  dsimp only
  cases w.analysis.scopes with
  | nil => rfl
  | cons scope rest =>
    dsimp only
    rw [Analysis.unused_perm (h _ _)]

mutual

/-- A statement changes what the analysis keeps, and nothing else but the count of closed scopes. -/
theorem Stmt.walk_eq {order : Order} (ho : order.Fair) (s : Stmt) (w : Walker) : s.walk order w =
    { w with analysis := s.resolve w.context w.analysis, closed := w.closed + s.scopeCount } := by
  cases s with
  | expr e => rfl
  | print e => rfl
  | varDecl name init => rfl
  | block body =>
    rw [Stmt.walk, Stmt.walkAll_eq ho, Walker.closeScope_eq ho]
    rfl
  | branch cond yes no =>
    cases no with
    | none =>
      rw [Stmt.walk, yes.walk_eq ho]
      rfl
    | some no =>
      rw [Stmt.walk, no.walk_eq ho, yes.walk_eq ho, Stmt.scopeCount, ← Nat.add_assoc]
      rfl
  | loop cond body =>
    have hctx : { w.resolve cond with loops := w.loops + 1 }.context =
        { w.context with inLoop := true } := by
      show Context.mk _ _ _ = Context.mk _ _ _
      rw [decide_eq_true (Nat.succ_pos w.loops)]
      rfl
    rw [Stmt.walk, body.walk_eq ho]
    dsimp only
    rw [show (w.resolve cond).loops = w.loops from rfl, hctx]
    rfl
  | breakLoop keyword =>
    have hnot : (!w.context.inLoop) = decide (w.loops = 0) := by
      simp [Walker.context, Nat.pos_iff_ne_zero]
    rw [Stmt.walk, Stmt.resolve, hnot]
    rfl
  | function decl =>
    rw [Stmt.walk, decl.walk_eq ho]
    rfl
  | returnWith keyword value => rfl
  | classDecl name superclass methods =>
    cases superclass with
    | none =>
      rw [Stmt.walk, Routine.walkMethods_eq ho, Walker.closeScope_eq ho]
      rfl
    | some superclass =>
      rw [Stmt.walk, Routine.walkMethods_eq ho, Walker.closeScope_eq ho, Walker.closeScope_eq ho]
      rfl
  | execute keyword path => rfl

theorem Stmt.walkAll_eq {order : Order} (ho : order.Fair) (ss : List Stmt) (w : Walker) :
    Stmt.walkAll order ss w =
    { w with
      analysis := Stmt.resolveAll w.context ss w.analysis
      closed := w.closed + Stmt.scopeCountAll ss } := by
  cases ss with
  | nil => rfl
  | cons s rest =>
    rw [Stmt.walkAll, s.walk_eq ho, Stmt.walkAll_eq ho, Stmt.scopeCountAll, ← Nat.add_assoc]
    rfl

theorem Routine.walk_eq {order : Order} (ho : order.Fair) (role : RoutineRole) (r : Routine)
    (w : Walker) : r.walk order role w =
    { w with
      analysis := r.resolve { w.context with routine := role } w.analysis
      closed := w.closed + r.scopeCount } := by
  cases r with
  | mk name params body =>
    rw [Routine.walk, Stmt.walkAll_eq ho, Walker.closeScope_eq ho]
    rfl

theorem Routine.walkMethods_eq {order : Order} (ho : order.Fair) (rs : List Routine) (w : Walker) :
    Routine.walkMethods order rs w =
    { w with
      analysis := Routine.resolveMethods w.context rs w.analysis
      closed := w.closed + Routine.scopeCountAll rs } := by
  cases rs with
  | nil => rfl
  | cons r rest =>
    rw [Routine.walkMethods, r.walk_eq ho, Routine.walkMethods_eq ho, Routine.scopeCountAll, ← Nat.add_assoc]
    rfl

end

end Lox
