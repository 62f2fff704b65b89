import Mathlib
import Lox.Evaluation

/-!
# Trees in surroundings of different shape

The same statement may run in two environments, one of which has a frame in between that binds nothing. A `Shape` says
where such frames are. The distance to a variable is then another one in each, so the two runs need
two trees: the same but for the identities, on whose record the distances are. Such trees are twins.
-/

namespace Lox

/-- One step out along two environments: a frame of both, or one that only the first or only the second has. -/
inductive Lane where
  | both
  | first
  | second

/-- How two environments lie beside each other, innermost first. Where the shape ends they go on with
frames of both. -/
abbrev Shape := List Lane

namespace Shape

/-- The two distances lead to one frame of both. -/
inductive Meet : Shape → Nat → Nat → Prop
  | beyond (d : Nat) : Meet [] d d
  | here {σ : Shape} : Meet (.both :: σ) 0 0
  | both {σ : Shape} {d d' : Nat} : Meet σ d d' → Meet (.both :: σ) (d + 1) (d' + 1)
  | first {σ : Shape} {d d' : Nat} : Meet σ d d' → Meet (.first :: σ) (d + 1) d'
  | second {σ : Shape} {d d' : Nat} : Meet σ d d' → Meet (.second :: σ) d (d' + 1)

/-- There are frames of both only. -/
def Plain (σ : Shape) : Prop := ∀ lane ∈ σ, lane = .both

/-- The innermost frame is one of both, so a name can be declared there. -/
def Solid : Shape → Prop
  | [] | .both :: _ => True
  | .first :: _ | .second :: _ => False

variable {σ : Shape}

theorem Plain.nil : Plain [] := List.forall_mem_nil _

theorem Plain.both (h : Plain σ) : Plain (.both :: σ) := List.forall_mem_cons.2 ⟨rfl, h⟩

theorem Plain.solid (h : Plain σ) : Solid σ := by
  cases σ with
  | nil => trivial
  | cons lane rest =>
    obtain rfl : lane = .both := h lane List.mem_cons_self
    trivial

theorem Plain.meet (h : Plain σ) (d : Nat) : Meet σ d d := by
  induction σ generalizing d with
  | nil => exact .beyond d
  | cons lane rest ih =>
    obtain ⟨rfl, hrest⟩ := List.forall_mem_cons.1 h
    cases d with
    | zero => exact .here
    | succ d => exact .both (ih hrest d)

theorem Solid.meet (h : Solid σ) : Meet σ 0 0 := by
  cases σ with
  | nil => exact .beyond 0
  | cons lane rest =>
    cases lane with
    | both => exact .here
    | first => exact h.elim
    | second => exact h.elim

end Shape

/-! ## Trees -/

/-- The distances on record when the runs begin, and the first identity that is not yet given away. -/
structure Record where
  distances : Distances
  bound : Nat

namespace Record

/-- The two references are to one variable, at a place of that shape: they are the same one in plain
surroundings, or their distances on record meet. -/
def Names (R : Record) (σ : Shape) (i j : Nat) : Prop :=
  (σ.Plain ∧ i = j) ∨
    (i < R.bound ∧ j < R.bound ∧ Option.Rel σ.Meet R.distances[i]? R.distances[j]?)

/-- The two references are to one superclass. The objects, one step less away, are the same too. -/
def Supers (R : Record) (σ : Shape) (i j : Nat) : Prop :=
  (σ.Plain ∧ i = j) ∨
    (i < R.bound ∧ j < R.bound ∧
      Option.Rel (fun d d' => σ.Meet d d' ∧ σ.Meet (d - 1) (d' - 1)) R.distances[i]? R.distances[j]?)

end Record

mutual

inductive Expr.Twin (R : Record) (σ : Shape) : Expr → Expr → Prop
  | literal (v : Literal) : Expr.Twin R σ (.literal v) (.literal v)
  | group {e e' : Expr} : Expr.Twin R σ e e' → Expr.Twin R σ (.group e) (.group e')
  | unary (op : Token) {e e' : Expr} : Expr.Twin R σ e e' → Expr.Twin R σ (.unary op e) (.unary op e')
  | binary (op : Token) {l l' r r' : Expr} : Expr.Twin R σ l l' → Expr.Twin R σ r r' →
      Expr.Twin R σ (.binary l op r) (.binary l' op r')
  | logical (op : Token) {l l' r r' : Expr} : Expr.Twin R σ l l' → Expr.Twin R σ r r' →
      Expr.Twin R σ (.logical l op r) (.logical l' op r')
  | var (name : Token) {i j : Nat} : R.Names σ i j → Expr.Twin R σ (.var i name) (.var j name)
  | assign (name : Token) {i j : Nat} {e e' : Expr} : R.Names σ i j → Expr.Twin R σ e e' →
      Expr.Twin R σ (.assign i name e) (.assign j name e')
  | call (paren : Token) {callee callee' : Expr} {args args' : List Expr} :
      Expr.Twin R σ callee callee' → Expr.TwinAll R σ args args' →
      Expr.Twin R σ (.call callee paren args) (.call callee' paren args')
  | get (name : Token) {object object' : Expr} : Expr.Twin R σ object object' →
      Expr.Twin R σ (.get object name) (.get object' name)
  | set (name : Token) {object object' e e' : Expr} : Expr.Twin R σ object object' →
      Expr.Twin R σ e e' → Expr.Twin R σ (.set object name e) (.set object' name e')
  | thisRef (keyword : Token) {i j : Nat} : R.Names σ i j →
      Expr.Twin R σ (.thisRef i keyword) (.thisRef j keyword)
  | superRef (keyword method : Token) {i j : Nat} : R.Supers σ i j →
      Expr.Twin R σ (.superRef i keyword method) (.superRef j keyword method)

inductive Expr.TwinAll (R : Record) (σ : Shape) : List Expr → List Expr → Prop
  | nil : Expr.TwinAll R σ [] []
  | cons {e e' : Expr} {rest rest' : List Expr} : Expr.Twin R σ e e' → Expr.TwinAll R σ rest rest' →
      Expr.TwinAll R σ (e :: rest) (e' :: rest')

end

mutual

/-- A scope within the statement is a frame of both. Only where the innermost frame is one of both may
the statement declare a name. -/
inductive Stmt.Twin (R : Record) : Shape → Stmt → Stmt → Prop
  | expr {σ : Shape} {e e' : Expr} : e.Twin R σ e' → Stmt.Twin R σ (.expr e) (.expr e')
  | print {σ : Shape} {e e' : Expr} : e.Twin R σ e' → Stmt.Twin R σ (.print e) (.print e')
  | varDecl {σ : Shape} (name : Token) {init init' : Option Expr} : σ.Solid →
      Option.Rel (Expr.Twin R σ) init init' → Stmt.Twin R σ (.varDecl name init) (.varDecl name init')
  | block {σ : Shape} {body body' : List Stmt} : Stmt.TwinAll R (.both :: σ) body body' →
      Stmt.Twin R σ (.block body) (.block body')
  | branch {σ : Shape} {cond cond' : Expr} {yes yes' : Stmt} : cond.Twin R σ cond' →
      Stmt.Twin R σ yes yes' → Stmt.Twin R σ (.branch cond yes none) (.branch cond' yes' none)
  | branchElse {σ : Shape} {cond cond' : Expr} {yes yes' no no' : Stmt} : cond.Twin R σ cond' →
      Stmt.Twin R σ yes yes' → Stmt.Twin R σ no no' →
      Stmt.Twin R σ (.branch cond yes (some no)) (.branch cond' yes' (some no'))
  | loop {σ : Shape} {cond cond' : Expr} {body body' : Stmt} : cond.Twin R σ cond' →
      Stmt.Twin R σ body body' → Stmt.Twin R σ (.loop cond body) (.loop cond' body')
  | breakLoop {σ : Shape} (keyword : Token) : Stmt.Twin R σ (.breakLoop keyword) (.breakLoop keyword)
  | function {σ : Shape} {decl decl' : Routine} : σ.Solid → Routine.Twin R σ decl decl' →
      Stmt.Twin R σ (.function decl) (.function decl')
  | returnWith {σ : Shape} (keyword : Token) {value value' : Option Expr} :
      Option.Rel (Expr.Twin R σ) value value' →
      Stmt.Twin R σ (.returnWith keyword value) (.returnWith keyword value')
  | classDecl {σ : Shape} (name : Token) {methods methods' : List Routine} : σ.Solid →
      Routine.TwinAll R (.both :: σ) methods methods' →
      Stmt.Twin R σ (.classDecl name none methods) (.classDecl name none methods')
  | subclassDecl {σ : Shape} (name : Token) {e e' : Expr} {methods methods' : List Routine} : σ.Solid →
      e.Twin R σ e' → Routine.TwinAll R (.both :: .both :: σ) methods methods' →
      Stmt.Twin R σ (.classDecl name (some e) methods) (.classDecl name (some e') methods')
  | execute {σ : Shape} (keyword : Token) {path path' : Expr} : path.Twin R σ path' →
      Stmt.Twin R σ (.execute keyword path) (.execute keyword path')

inductive Stmt.TwinAll (R : Record) : Shape → List Stmt → List Stmt → Prop
  | nil {σ : Shape} : Stmt.TwinAll R σ [] []
  | cons {σ : Shape} {s s' : Stmt} {rest rest' : List Stmt} : Stmt.Twin R σ s s' →
      Stmt.TwinAll R σ rest rest' → Stmt.TwinAll R σ (s :: rest) (s' :: rest')

/-- The shape is that of the surroundings, without the scope of the call. -/
inductive Routine.Twin (R : Record) : Shape → Routine → Routine → Prop
  | mk {σ : Shape} (name : Token) (params : List Token) {body body' : List Stmt} :
      Stmt.TwinAll R (.both :: σ) body body' → Routine.Twin R σ ⟨name, params, body⟩ ⟨name, params, body'⟩

inductive Routine.TwinAll (R : Record) : Shape → List Routine → List Routine → Prop
  | nil {σ : Shape} : Routine.TwinAll R σ [] []
  | cons {σ : Shape} {r r' : Routine} {rest rest' : List Routine} : Routine.Twin R σ r r' →
      Routine.TwinAll R σ rest rest' → Routine.TwinAll R σ (r :: rest) (r' :: rest')

end

/-- Twins are named alike where a superclass is no class. -/
theorem Expr.Twin.superclassToken {R : Record} {σ : Shape} {e e' : Expr} (h : e.Twin R σ e') (name : Token) :
    Eval.superclassToken name e' = Eval.superclassToken name e := by
  cases h <;> rfl

namespace Routine.Twin

variable {R : Record} {σ : Shape} {r r' : Routine}

theorem name (h : r.Twin R σ r') : r'.name = r.name := by
  cases h
  rfl

theorem params (h : r.Twin R σ r') : r'.params = r.params := by
  cases h
  rfl

theorem body (h : r.Twin R σ r') : Stmt.TwinAll R (.both :: σ) r.body r'.body := by
  cases h with
  | mk _ _ hbody => exact hbody

end Routine.Twin

/-! ## In plain surroundings every tree is its own twin -/

mutual

theorem Expr.twin_self {R : Record} {σ : Shape} (hσ : σ.Plain) (e : Expr) : e.Twin R σ e := by
  cases e with
  | literal v => exact .literal v
  | group e => exact .group (e.twin_self hσ)
  | unary op e => exact .unary op (e.twin_self hσ)
  | binary l op r => exact .binary op (l.twin_self hσ) (r.twin_self hσ)
  | logical l op r => exact .logical op (l.twin_self hσ) (r.twin_self hσ)
  | var id name => exact .var name (.inl ⟨hσ, rfl⟩)
  | assign id name e => exact .assign name (.inl ⟨hσ, rfl⟩) (e.twin_self hσ)
  | call callee paren args => exact .call paren (callee.twin_self hσ) (Expr.twinAll_self hσ args)
  | get object name => exact .get name (object.twin_self hσ)
  | set object name e => exact .set name (object.twin_self hσ) (e.twin_self hσ)
  | thisRef id keyword => exact .thisRef keyword (.inl ⟨hσ, rfl⟩)
  | superRef id keyword method => exact .superRef keyword method (.inl ⟨hσ, rfl⟩)

theorem Expr.twinAll_self {R : Record} {σ : Shape} (hσ : σ.Plain) (es : List Expr) :
    Expr.TwinAll R σ es es := by
  cases es with
  | nil => exact .nil
  | cons e rest => exact .cons (e.twin_self hσ) (Expr.twinAll_self hσ rest)

end

theorem Expr.twin_option_self {R : Record} {σ : Shape} (hσ : σ.Plain) (e : Option Expr) :
    Option.Rel (Expr.Twin R σ) e e := by
  cases e with
  | none => exact .none
  | some e => exact .some (e.twin_self hσ)

mutual

theorem Stmt.twin_self {R : Record} {σ : Shape} (hσ : σ.Plain) (s : Stmt) : s.Twin R σ s := by
  cases s with
  | expr e => exact .expr (e.twin_self hσ)
  | print e => exact .print (e.twin_self hσ)
  | varDecl name init => exact .varDecl name hσ.solid (Expr.twin_option_self hσ init)
  | block body => exact .block (Stmt.twinAll_self hσ.both body)
  | branch cond yes no =>
    cases no with
    | none => exact .branch (cond.twin_self hσ) (yes.twin_self hσ)
    | some no => exact .branchElse (cond.twin_self hσ) (yes.twin_self hσ) (no.twin_self hσ)
  | loop cond body => exact .loop (cond.twin_self hσ) (body.twin_self hσ)
  | breakLoop keyword => exact .breakLoop keyword
  | function decl => exact .function hσ.solid (decl.twin_self hσ)
  | returnWith keyword value => exact .returnWith keyword (Expr.twin_option_self hσ value)
  | classDecl name superclass methods =>
    cases superclass with
    | none => exact .classDecl name hσ.solid (Routine.twinAll_self hσ.both methods)
    | some e => exact .subclassDecl name hσ.solid (e.twin_self hσ) (Routine.twinAll_self hσ.both.both methods)
  | execute keyword path => exact .execute keyword (path.twin_self hσ)

theorem Stmt.twinAll_self {R : Record} {σ : Shape} (hσ : σ.Plain) (ss : List Stmt) :
    Stmt.TwinAll R σ ss ss := by
  cases ss with
  | nil => exact .nil
  | cons s rest => exact .cons (s.twin_self hσ) (Stmt.twinAll_self hσ rest)

theorem Routine.twin_self {R : Record} {σ : Shape} (hσ : σ.Plain) (r : Routine) : r.Twin R σ r := by
  cases r with
  | mk name params body => exact .mk name params (Stmt.twinAll_self hσ.both body)

theorem Routine.twinAll_self {R : Record} {σ : Shape} (hσ : σ.Plain) (rs : List Routine) :
    Routine.TwinAll R σ rs rs := by
  cases rs with
  | nil => exact .nil
  | cons r rest => exact .cons (r.twin_self hσ) (Routine.twinAll_self hσ rest)

end

end Lox
