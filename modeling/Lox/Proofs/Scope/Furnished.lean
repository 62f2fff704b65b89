import Lox.Proofs.Regular
import Lox.Proofs.Scope.Analysis

/-!
# Where `this` and `super` are in scope

Only classes bring `this` and `super` into scope, and with a value from the start. A class with a
superclass opens two scopes, that of `this` just inside that of `super`. No declaration of a program adds to
this, for its names are others. So wherever the role of the surrounding class allows `this` or `super`, the scopes
have it.
-/

namespace Lox
namespace Scoping

/-- What a scope says of `this` and of `super`. -/
def Outline.reserved (o : Outline) : Option Bool × Option Bool := (o "this", o "super")

/-- Each scope is one of a class or says nothing of `this` and `super`. -/
inductive Furnished : List (Option Bool × Option Bool) → Prop
  | nil : Furnished []
  | scope {ps : List (Option Bool × Option Bool)} : Furnished ps → Furnished ((none, none) :: ps)
  | plain {ps : List (Option Bool × Option Bool)} : Furnished ps → Furnished ((some true, none) :: ps)
  | derived {ps : List (Option Bool × Option Bool)} : Furnished ps →
      Furnished ((some true, none) :: (none, some true) :: ps)

namespace Furnished

variable {ps : List (Option Bool × Option Bool)} {p : Option Bool × Option Bool} {k : Nat}

theorem settled (h : Furnished ps) (hp : p ∈ ps) : p.1 ≠ some false ∧ p.2 ≠ some false := by
  induction h with
  | nil => cases hp
  | scope _ ih =>
    rcases List.mem_cons.1 hp with rfl | hp
    · exact ⟨nofun, nofun⟩
    · exact ih hp
  | plain _ ih =>
    rcases List.mem_cons.1 hp with rfl | hp
    · exact ⟨nofun, nofun⟩
    · exact ih hp
  | derived _ ih =>
    rcases List.mem_cons.1 hp with rfl | hp
    · exact ⟨nofun, nofun⟩
    rcases List.mem_cons.1 hp with rfl | hp
    · exact ⟨nofun, nofun⟩
    · exact ih hp

/-- The scope inside that of `super` has `this`. -/
theorem inside (h : Furnished ps) (hk : ps[k]? = some p) (hp : p.2.isSome = true) :
    ∃ j q, k = j + 1 ∧ ps[j]? = some q ∧ q.1 = some true := by
  induction h generalizing k with
  | nil => cases hk
  | scope _ ih =>
    cases k with
    | zero =>
      cases hk
      cases hp
    | succ k =>
      obtain ⟨j, q, rfl, hq, htrue⟩ := ih hk
      exact ⟨j + 1, q, rfl, hq, htrue⟩
  | plain _ ih =>
    cases k with
    | zero =>
      cases hk
      cases hp
    | succ k =>
      obtain ⟨j, q, rfl, hq, htrue⟩ := ih hk
      exact ⟨j + 1, q, rfl, hq, htrue⟩
  | derived _ ih =>
    match k with
    | 0 =>
      cases hk
      cases hp
    | 1 => exact ⟨0, _, rfl, rfl, rfl⟩
    | k + 2 =>
      obtain ⟨j, q, rfl, hq, htrue⟩ := ih hk
      exact ⟨j + 2, q, rfl, hq, htrue⟩

end Furnished

/-- The kind of the class around a place and the pieces of the program there, with what their scopes say of `this` and
of `super`. -/
inductive Housed : ClassRole → List Site → List (Option Bool × Option Bool) → Prop
  | nil : Housed .outside [] []
  | block {role : ClassRole} {sites : List Site} {ps : List (Option Bool × Option Bool)} {body : List Stmt} :
      Housed role sites ps → Housed role (.block body :: sites) ((none, none) :: ps)
  | routine {role : ClassRole} {sites : List Site} {ps : List (Option Bool × Option Bool)} {decl : Routine} :
      Housed role sites ps → Housed role (.routine decl :: sites) ((none, none) :: ps)
  | method {role : ClassRole} {sites : List Site} {ps : List (Option Bool × Option Bool)} {decl : Routine} :
      Housed role sites ps →
      Housed .plain (.routine decl :: .receiver decl :: sites) ((none, none) :: (some true, none) :: ps)
  | derived {role : ClassRole} {sites : List Site} {ps : List (Option Bool × Option Bool)} {decl : Routine}
      {methods : List Routine} : decl ∈ methods → Housed role sites ps →
      Housed .derived (.routine decl :: .receiver decl :: .parent methods :: sites)
        ((none, none) :: (some true, none) :: (none, some true) :: ps)

namespace Housed

variable {role : ClassRole} {sites : List Site} {ps : List (Option Bool × Option Bool)}

theorem furnished (h : Housed role sites ps) : Furnished ps := by
  induction h with
  | nil => exact .nil
  | block _ ih => exact .scope ih
  | routine _ ih => exact .scope ih
  | method _ ih => exact .scope (.plain ih)
  | derived _ _ ih => exact .scope (.derived ih)

/-- In a class some scope has `this`, and in one with a superclass some scope has `super`. -/
theorem provides (h : Housed role sites ps) : (role ≠ .outside → ∃ p ∈ ps, p.1 = some true) ∧
    (role = .derived → ∃ p ∈ ps, p.2 = some true) := by
  induction h with
  | nil => exact ⟨fun h => absurd rfl h, nofun⟩
  | block _ ih | routine _ ih => simpa using ih
  | method _ _ => simp
  | derived _ _ _ => simp

end Housed

/-- What the scopes of an analysis say of `this` and of `super`. -/
def reserves (a : Analysis) : List (Option Bool × Option Bool) := (outlines a.scopes).map Outline.reserved

theorem Outline.reserved_update {o : Outline} {name : String} (hthis : name ≠ "this")
    (hsuper : name ≠ "super") (b : Bool) : (o.update name b).reserved = o.reserved := by
  unfold reserved update
  rw [if_neg hthis.symm, if_neg hsuper.symm]

theorem Outline.map_reserved_declare {name : Token} (h : name.Free) (os : List Outline) :
    (Outline.declare name.lexeme os).map Outline.reserved = os.map Outline.reserved := by
  cases os with
  | nil => rfl
  | cons o os =>
    rw [Outline.declare, List.map_cons, List.map_cons]
    split
    · rfl
    · rw [Outline.reserved_update h.1 h.2]

theorem Outline.map_reserved_bindAll {names : List String}
    (h : ∀ name ∈ names, name ≠ "this" ∧ name ≠ "super") (os : List Outline) :
    (Outline.bindAll names os).map Outline.reserved = os.map Outline.reserved := by
  induction names generalizing os with
  | nil => rfl
  | cons name rest ih =>
    have hname := h name List.mem_cons_self
    refine (ih (fun x hx => h x (List.mem_cons_of_mem _ hx)) _).trans ?_
    cases os with
    | nil => rfl
    | cons o os =>
      show (o.update name true).reserved :: os.map Outline.reserved = (o :: os).map Outline.reserved
      rw [List.map_cons, Outline.reserved_update hname.1 hname.2]

theorem map_reserved_bind {a : Analysis} {name : Token} (h : name.Free) :
    reserves ((a.declare name).define name) = reserves a := by
  unfold reserves
  rw [Analysis.outlines_bind]
  have hname : ∀ x ∈ [name.lexeme], x ≠ "this" ∧ x ≠ "super" := List.forall_mem_singleton.2 h
  exact Outline.map_reserved_bindAll hname _

/-- The visit names `this` or `super` by its word, and the pieces of the program around it are as its scopes are. Where
the name of a superclass is looked up, the class of the visit is not yet around it. -/
structure Visit.Housed (v : Visit) : Prop where
  scopes : ∃ role, Scoping.Housed role v.sites ((outlines v.scopes).map Outline.reserved) ∧
    (v.ref.access = .receiver ∨ v.ref.access = .parent → v.inClass = role)
  receiver : v.ref.access = .receiver → v.ref.name.lexeme = "this"
  parent : v.ref.access = .parent → v.ref.name.lexeme = "super"

/-- A name that some scope has given a value is found. -/
theorem markUsed_of_outlines {name : String} {scopes : List Scope} (h : ∃ o ∈ outlines scopes, o name = some true) :
    (Analysis.markUsed name scopes).isSome = true := by
  induction scopes with
  | nil =>
    obtain ⟨o, ho, -⟩ := h
    cases ho
  | cons scope rest ih =>
    unfold Analysis.markUsed
    cases hb : scope.get? name with
    | some b => rfl
    | none =>
      obtain ⟨o, ho, hn⟩ := h
      rcases List.mem_cons.1 ho with rfl | ho
      · simp [Scope.outline, hb] at hn
      · simpa using ih ⟨o, ho, hn⟩

/-- Where `this` or `super` is allowed, it has a distance. -/
theorem Visit.Housed.distance {v : Visit} (h : v.Housed) (hallowed : v.ref.access.allowedIn v.inClass = true)
    (haccess : v.ref.access = .receiver ∨ v.ref.access = .parent) : v.distance.isSome = true := by
  obtain ⟨role, hscopes, hrole⟩ := h.scopes
  obtain ⟨hthis, hsuper⟩ := hscopes.provides
  rw [Visit.distance, if_pos hallowed, Option.isSome_map]
  rw [hrole haccess] at hallowed
  apply markUsed_of_outlines
  rcases haccess with hacc | hacc
  · rw [h.receiver hacc]
    simpa [Outline.reserved] using hthis (by simpa [hacc, Access.allowedIn] using hallowed)
  · rw [h.parent hacc]
    simpa [Outline.reserved] using hsuper (by simpa [hacc, Access.allowedIn] using hallowed)

def AllHoused (vs : List Visit) : Prop := ∀ v ∈ vs, v.Housed

theorem AllHoused.nil : AllHoused [] := List.forall_mem_nil _

theorem AllHoused.append {vs ws : List Visit} (hv : AllHoused vs) (hw : AllHoused ws) : AllHoused (vs ++ ws) :=
  List.forall_mem_append.2 ⟨hv, hw⟩

theorem AllHoused.single {v : Visit} (h : v.Housed) : AllHoused [v] := List.forall_mem_singleton.2 h

end Scoping

open Scoping Analysis

theorem Stmt.declared_free {s : Stmt} (h : s.Regular) :
    ∀ name ∈ s.declared, name ≠ "this" ∧ name ≠ "super" := by
  cases s with
  | varDecl name init => exact List.forall_mem_singleton.2 h.1
  | function decl => exact List.forall_mem_singleton.2 (Routine.regular_iff.1 h).1
  | classDecl name superclass methods => exact List.forall_mem_singleton.2 h.1
  | branch cond yes no =>
    cases no with
    | none => exact Stmt.declared_free (s := yes) h.2
    | some no => exact List.forall_mem_append.2 ⟨Stmt.declared_free h.2.1, Stmt.declared_free h.2.2⟩
  | loop cond body => exact Stmt.declared_free (s := body) h.2
  | _ => exact List.forall_mem_nil _

theorem Stmt.reserves_resolve (ctx : Context) {s : Stmt} (h : s.Regular) (a : Analysis) :
    reserves (s.resolve ctx a) = reserves a := by
  unfold reserves
  rw [Stmt.outlines_resolve]
  exact Outline.map_reserved_bindAll (Stmt.declared_free h) _

theorem Expr.reserves_resolve (ctx : Context) (e : Expr) (a : Analysis) :
    reserves (e.resolve ctx a) = reserves a := by
  unfold reserves
  rw [Expr.outlines_resolve]

theorem Routine.reserves_resolve (ctx : Context) (r : Routine) (a : Analysis) :
    reserves (r.resolve ctx a) = reserves a := by
  unfold reserves
  rw [Routine.outlines_resolve]

mutual

theorem Expr.housed {ctx : Context} {a : Analysis} {sites : List Site} (e : Expr) (hw : e.WellFormed)
    (h : Housed ctx.inClass sites (reserves a)) : AllHoused (e.visits ctx sites a) := by
  -- an expression opens no scope
  have hnext : ∀ e : Expr, Housed ctx.inClass sites (reserves (e.resolve ctx a)) := fun e => by
    rwa [Expr.reserves_resolve]
  cases e with
  | literal => exact .nil
  | group e => exact e.housed hw h
  | unary _ e => exact e.housed hw h
  | binary l _ r => exact .append (l.housed hw.1 h) (r.housed hw.2 (hnext l))
  | logical l _ r => exact .append (l.housed hw.1 h) (r.housed hw.2 (hnext l))
  | var id name => exact .single ⟨⟨_, h, nofun⟩, nofun, nofun⟩
  | assign id name e => exact .append (e.housed hw h) (.single ⟨⟨_, hnext e, nofun⟩, nofun, nofun⟩)
  | call callee _ args => exact .append (callee.housed hw.1 h) (Expr.housedAll args hw.2 (hnext callee))
  | get object _ => exact object.housed hw h
  | set object _ e => exact .append (e.housed hw.2 h) (object.housed hw.1 (hnext e))
  | thisRef id keyword => exact .single ⟨⟨_, h, fun _ => rfl⟩, fun _ => hw, nofun⟩
  | superRef id keyword method => exact .single ⟨⟨_, h, fun _ => rfl⟩, nofun, fun _ => hw⟩

theorem Expr.housedAll {ctx : Context} {a : Analysis} {sites : List Site} (es : List Expr)
    (hw : Expr.AllWellFormed es) (h : Housed ctx.inClass sites (reserves a)) :
    AllHoused (Expr.visitsAll ctx sites es a) := by
  cases es with
  | nil => exact .nil
  | cons e rest => exact .append (e.housed hw.1 h) (Expr.housedAll rest hw.2 (by rwa [Expr.reserves_resolve]))

end

theorem Expr.housedOption {ctx : Context} {a : Analysis} {sites : List Site} (e : Option Expr)
    (hw : Expr.OptionWellFormed e) (h : Housed ctx.inClass sites (reserves a)) :
    AllHoused (Expr.visitsOption ctx sites e a) := by
  cases e with
  | none => exact .nil
  | some e => exact e.housed hw h

mutual

theorem Stmt.housed {ctx : Context} {a : Analysis} {sites : List Site} (s : Stmt) (hw : s.WellFormed) (hr : s.Regular)
    (h : Housed ctx.inClass sites (reserves a)) : AllHoused (s.visits ctx sites a) := by
  cases s with
  | expr e => exact e.housed hw h
  | print e => exact e.housed hw h
  | varDecl name init =>
    refine Expr.housedOption init hw ?_
    rwa [reserves, outlines_declare, Outline.map_reserved_declare hr.1]
  | block body => exact Stmt.housedAll body hw hr h.block
  | branch cond yes no =>
    have hy : Housed ctx.inClass sites (reserves (cond.resolve ctx a)) := by rwa [Expr.reserves_resolve]
    cases no with
    | none => exact .append (cond.housed hw.1 h) (yes.housed hw.2.1 hr.2 hy)
    | some no =>
      refine .append (cond.housed hw.1 h)
        (.append (yes.housed hw.2.1.1 hr.2.1 hy) (no.housed hw.2.2.1 hr.2.2 ?_))
      rwa [Stmt.reserves_resolve ctx hr.2.1]
  | loop cond body =>
    exact .append (cond.housed hw.1 h) (body.housed hw.2.1 hr.2 (by rwa [Expr.reserves_resolve]))
  | breakLoop keyword => exact .nil
  | function decl =>
    refine decl.housed hw hr (Housed.routine ?_)
    rwa [map_reserved_bind (Routine.regular_iff.1 hr).1]
  | returnWith keyword value =>
    exact Expr.housedOption value hw (by simpa only [reserves, scopes_failIf] using h)
  | classDecl name superclass methods =>
    have hname : Housed ctx.inClass sites (reserves ((a.declare name).define name)) := by rwa [map_reserved_bind hr.1]
    cases superclass with
    | none =>
      refine Routine.housedMethods methods hw.2 hr.2.2 fun r _ => ?_
      rw [reserves, enterClass, outlines_provide, outlines_openScope]
      exact hname.method
    | some superclass =>
      obtain ⟨id, superName, rfl⟩ := hw.1
      have hsub : Housed ctx.inClass sites (reserves (a.enterSubclass name (.var id superName))) := by
        rwa [reserves, enterSubclass, scopes_checkSuperclass]
      refine .append (.single ⟨⟨_, hsub, nofun⟩, nofun, nofun⟩)
        (Routine.housedMethods methods hw.2 hr.2.2 fun r hmem => ?_)
      rw [reserves, enterMethods, outlines_provide, outlines_openScope, outlines_provide,
        outlines_openScope, Expr.outlines_resolve]
      exact hsub.derived hmem
  | execute keyword path => exact path.housed hw h

theorem Stmt.housedAll {ctx : Context} {a : Analysis} {sites : List Site} (ss : List Stmt)
    (hw : Stmt.AllWellFormed ss) (hr : Stmt.AllRegular ss) (h : Housed ctx.inClass sites (reserves a)) :
    AllHoused (Stmt.visitsAll ctx sites ss a) := by
  cases ss with
  | nil => exact .nil
  | cons s rest =>
    refine .append (s.housed hw.1 hr.1 h) (Stmt.housedAll rest hw.2 hr.2 ?_)
    rwa [Stmt.reserves_resolve ctx hr.1]

/-- How the routine is housed decides where its body is. -/
theorem Routine.housed {ctx : Context} {a : Analysis} {sites : List Site} (r : Routine) (hw : r.WellFormed)
    (hr : r.Regular) (h : Housed ctx.inClass (.routine r :: sites) ((none, none) :: reserves a)) :
    AllHoused (r.visits ctx sites a) := by
  cases r with
  | mk name params body =>
    refine Stmt.housedAll body hw hr.2.2 ?_
    rw [reserves, outlines_declareAll, outlines_openScope, Outline.map_reserved_bindAll]
    · exact h
    · intro x hx
      obtain ⟨p, hp, rfl⟩ := List.mem_map.1 hx
      exact hr.2.1 p hp

theorem Routine.housedMethods {ctx : Context} {a : Analysis} {sites : List Site} (rs : List Routine)
    (hw : Routine.AllWellFormed rs) (hr : Routine.AllRegular rs)
    (h : ∀ r ∈ rs, Housed ctx.inClass (.routine r :: .receiver r :: sites) ((none, none) :: reserves a)) :
    AllHoused (Routine.visitsMethods ctx sites rs a) := by
  cases rs with
  | nil => exact .nil
  | cons r rest =>
    refine .append (r.housed hw.1 hr.1 (h r List.mem_cons_self))
      (Routine.housedMethods rest hw.2 hr.2 fun r' hmem => ?_)
    rw [Routine.reserves_resolve]
    exact h r' (List.mem_cons_of_mem r hmem)

end

theorem Stmt.housed_of_visitsProgram {program : List Stmt} {distances : Distances}
    (hw : Stmt.AllWellFormed program) (hr : Stmt.AllRegular program) {v : Visit}
    (hv : v ∈ Stmt.visitsProgram program distances) : v.Housed :=
  Stmt.housedAll (a := { distances := distances }) program hw hr .nil v hv

end Lox
