import Lox.Proofs.Match.Trees
import Lox.Scoping

/-!
# Analysing matched programs

Scope analysis of matched programs, the second some lines further down, goes the same way: it finds the
same distances for matched identities, like errors, and the same warnings some lines further down.
-/

namespace Lox

/-! ## Tables and lines -/

/-- The same table with other values. -/
def Table.mapValues {α β : Type} (f : α → β) (t : Table α) : Table β := t.map fun x => (x.1, f x.2)

namespace Table

variable {α β : Type} (f : α → β)

theorem get?_mapValues (t : Table α) (name : String) :
    (t.mapValues f).get? name = (t.get? name).map f := by
  induction t with
  | nil => rfl
  | cons entry rest ih =>
    obtain ⟨key, value⟩ := entry
    show (if key = name then some (f value) else get? (mapValues f rest) name) = _
    rw [ih, get?]
    split <;> rfl

theorem insert_mapValues (t : Table α) (name : String) (value : α) :
    (t.mapValues f).insert name (f value) = (t.insert name value).mapValues f := by
  induction t with
  | nil => rfl
  | cons entry rest ih =>
    obtain ⟨key, old⟩ := entry
    show (if key = name then (name, f value) :: mapValues f rest
      else (key, f old) :: insert (mapValues f rest) name (f value)) = _
    rw [ih, insert]
    split <;> rfl

theorem has_mapValues (t : Table α) (name : String) : (t.mapValues f).has name = t.has name := by
  rw [has, has, get?_mapValues, Option.isSome_map]

end Table

/-- The same warning `c` lines further down. -/
def Warning.shift (c : Nat) (w : Warning) : Warning := { w with line := w.line + c }

namespace Scoping

def Binding.shift (c : Nat) (b : Binding) : Binding := { b with line := b.line + c }

def Scope.shift (c : Nat) (scope : Scope) : Scope := scope.mapValues (Binding.shift c)

/-- The faults that analysis finds in a program in which each superclass is a name. -/
def isFound : ScopeFault → Bool
  | .custom _ | .superclassNotNamed => false
  | _ => true

/-- Two analyses go abreast: matched lines are `c` lines apart, an identity is matched by one other only,
and a fault at matched tokens is a like error. -/
structure Abreast (ρ : Matching) (E : Error → Error → Prop) (c : Nat) : Prop where
  line {k l : Nat} : ρ.line k l → l = k + c
  node {i j i' j' : Nat} : ρ.node i j → ρ.node i' j' → (i = i' ↔ j = j')
  error {t t' : Token} {fault : ScopeFault} : t.Matched ρ t' → isFound fault = true →
    E (.scopingAt t fault) (.scopingAt t' fault)

/-- The same analysis, `c` lines further down, with `older'` in the place of the warnings `older`. -/
structure Analysis.Matched (ρ : Matching) (E : Error → Error → Prop) (c : Nat)
    (older older' : List Warning) (a a' : Analysis) : Prop where
  scopes : a'.scopes = a.scopes.map (Scope.shift c)
  distances (i j : Nat) : ρ.node i j → a'.distances[j]? = a.distances[i]?
  errors : List.Forall₂ E a.errors a'.errors
  warnings : ∃ new, a.warnings = older ++ new ∧ a'.warnings = older' ++ new.map (Warning.shift c)

namespace Analysis
namespace Matched

variable {ρ : Matching} {E : Error → Error → Prop} {c : Nat} {older older' : List Warning}
  {a a' : Analysis}

theorem start {d d' : Distances} (h : ∀ i j, ρ.node i j → d'[j]? = d[i]?) :
    Analysis.Matched ρ E c [] [] { distances := d } { distances := d' } :=
  ⟨rfl, h, .nil, [], rfl, rfl⟩

/-! ## Single steps -/

theorem fail (hr : Abreast ρ E c) (h : a.Matched ρ E c older older' a') {t t' : Token}
    (ht : t.Matched ρ t') {fault : ScopeFault} (hf : isFound fault = true := by rfl) :
    (a.fail t fault).Matched ρ E c older older' (a'.fail t' fault) :=
  ⟨h.scopes, h.distances, List.rel_append h.errors (.cons (hr.error ht hf) .nil), h.warnings⟩

theorem failIf (hr : Abreast ρ E c) (h : a.Matched ρ E c older older' a') (cond : Bool) {t t' : Token}
    (ht : t.Matched ρ t') {fault : ScopeFault} (hf : isFound fault = true := by rfl) :
    (a.failIf cond t fault).Matched ρ E c older older' (a'.failIf cond t' fault) := by
  unfold Analysis.failIf
  split
  · exact h.fail hr ht hf
  · exact h

theorem openScope (h : a.Matched ρ E c older older' a') :
    a.openScope.Matched ρ E c older older' a'.openScope :=
  ⟨congrArg ([] :: ·) h.scopes, h.distances, h.errors, h.warnings⟩

/-- Lines further down stand in the same order. -/
theorem unused_shift (c : Nat) (scope : Scope) :
    unused (scope.shift c) = (unused scope).map (Warning.shift c) := by
  have hf : (scope.shift c).filter (!·.2.used) =
      (scope.filter (!·.2.used)).map fun x => (x.1, x.2.shift c) := by
    rw [Scope.shift, Table.mapValues, List.filter_map]
    rfl
  unfold unused
  dsimp only
  rw [hf, ← List.map_mergeSort, List.map_map, List.map_map]
  · rfl
  · intro x _ y _
    simp [Binding.shift]

theorem closeScope (h : a.Matched ρ E c older older' a') :
    a.closeScope.Matched ρ E c older older' a'.closeScope := by
  have hs := h.scopes
  unfold Analysis.closeScope
  cases hscopes : a.scopes with
  | nil =>
    rw [hscopes] at hs
    rw [hs]
    exact h
  | cons scope rest =>
    rw [hscopes] at hs
    rw [hs, List.map_cons]
    dsimp only
    obtain ⟨new, hw, hw'⟩ := h.warnings
    refine ⟨rfl, h.distances, h.errors, new ++ unused scope, ?_, ?_⟩
    · rw [hw, List.append_assoc]
    · rw [hw', unused_shift, List.map_append, List.append_assoc]

theorem declare (hr : Abreast ρ E c) (h : a.Matched ρ E c older older' a') {t t' : Token}
    (ht : t.Matched ρ t') : (a.declare t).Matched ρ E c older older' (a'.declare t') := by
  have hs := h.scopes
  unfold Analysis.declare
  cases hscopes : a.scopes with
  | nil =>
    rw [hscopes] at hs
    rw [hs]
    exact h
  | cons scope rest =>
    rw [hscopes] at hs
    rw [hs, List.map_cons]
    dsimp only
    rw [ht.lexeme, Scope.shift, Table.has_mapValues]
    split
    · exact h.fail hr ht
    · refine ⟨?_, h.distances, h.errors, h.warnings⟩
      rw [hr.line ht.line, List.map_cons, Scope.shift, ← Table.insert_mapValues]
      rfl

theorem define (h : a.Matched ρ E c older older' a') {t t' : Token} (ht : t.Matched ρ t') :
    (a.define t).Matched ρ E c older older' (a'.define t') := by
  have hs := h.scopes
  unfold Analysis.define
  cases hscopes : a.scopes with
  | nil =>
    rw [hscopes] at hs
    rw [hs]
    exact h
  | cons scope rest =>
    rw [hscopes] at hs
    rw [hs, List.map_cons]
    dsimp only
    rw [ht.lexeme, Scope.shift, Table.get?_mapValues]
    cases scope.get? t.lexeme with
    | none => exact h
    | some b =>
      refine ⟨?_, h.distances, h.errors, h.warnings⟩
      rw [Option.map_some, List.map_cons, Scope.shift, ← Table.insert_mapValues]
      rfl

theorem declareAll (hr : Abreast ρ E c) {ts ts' : List Token}
    (hts : List.Forall₂ (Token.Matched ρ) ts ts') (h : a.Matched ρ E c older older' a') :
    (a.declareAll ts).Matched ρ E c older older' (a'.declareAll ts') := by
  unfold Analysis.declareAll
  induction hts generalizing a a' with
  | nil => exact h
  | cons ht _ ih => exact ih ((h.declare hr ht).define ht)

theorem provide (h : a.Matched ρ E c older older' a') (name : String) {line line' : Nat}
    (hl : line' = line + c) :
    (a.provide name line).Matched ρ E c older older' (a'.provide name line') := by
  have hs := h.scopes
  unfold Analysis.provide
  cases hscopes : a.scopes with
  | nil =>
    rw [hscopes] at hs
    rw [hs]
    exact h
  | cons scope rest =>
    rw [hscopes] at hs
    rw [hs, hl]
    refine ⟨?_, h.distances, h.errors, h.warnings⟩
    dsimp only
    rw [List.map_cons, List.map_cons, Scope.shift, Scope.shift, ← Table.insert_mapValues]
    rfl

theorem markUsed_shift (c : Nat) (name : String) (scopes : List Scope) :
    markUsed name (scopes.map (Scope.shift c)) =
      (markUsed name scopes).map fun x => (x.1, x.2.map (Scope.shift c)) := by
  induction scopes with
  | nil => rfl
  | cons scope rest ih =>
    rw [List.map_cons]
    unfold markUsed
    rw [ih, Scope.shift, Table.get?_mapValues]
    cases scope.get? name with
    | none => cases markUsed name rest <;> rfl
    | some b =>
      rw [Option.map_some, Option.map_some, List.map_cons, Scope.shift, ← Table.insert_mapValues]
      rfl

theorem refer (hr : Abreast ρ E c) (h : a.Matched ρ E c older older' a') {i j : Nat}
    (hij : ρ.node i j) (name : String) :
    (a.refer i name).Matched ρ E c older older' (a'.refer j name) := by
  unfold Analysis.refer
  rw [h.scopes, markUsed_shift]
  cases markUsed name a.scopes with
  | none => exact h
  | some found =>
    refine ⟨rfl, fun i' j' hij' => ?_, h.errors, h.warnings⟩
    dsimp only [Option.map_some]
    rw [Std.TreeMap.getElem?_insert, Std.TreeMap.getElem?_insert, h.distances i' j' hij']
    have hu := hr.node hij hij'
    by_cases hi : i = i'
    · have hj := hu.1 hi
      simp [hi, hj]
    · have hj : ¬ j = j' := fun hj => hi (hu.2 hj)
      simp [hi, hj]

theorem initializing (h : a.Matched ρ E c older older' a') (name : String) :
    a'.initializing name = a.initializing name := by
  unfold Analysis.initializing
  rw [h.scopes]
  cases a.scopes with
  | nil => rfl
  | cons scope rest =>
    simp only [List.map_cons, Scope.shift, Table.get?_mapValues]
    cases scope.get? name <;> rfl

end Matched
end Analysis
end Scoping

/-! ## Programs -/

open Scoping

section

variable {ρ : Matching} {E : Error → Error → Prop} {c : Nat} {older older' : List Warning}

mutual

theorem Expr.Matched.resolve (hr : Abreast ρ E c) (ctx : Context) {e e' : Expr}
    (he : e.Matched ρ e') {a a' : Analysis} (h : a.Matched ρ E c older older' a') :
    (e.resolve ctx a).Matched ρ E c older older' (e'.resolve ctx a') := by
  cases he with
  | literal v => exact h
  | group he => exact he.resolve hr ctx h
  | unary _ he => exact he.resolve hr ctx h
  | binary hleft _ hright => exact hright.resolve hr ctx (hleft.resolve hr ctx h)
  | logical hleft _ hright => exact hright.resolve hr ctx (hleft.resolve hr ctx h)
  | var hi hname =>
    rw [Expr.resolve, Expr.resolve, hname.lexeme, h.initializing]
    exact (h.failIf hr _ hname).refer hr hi _
  | assign hi hname he =>
    rw [Expr.resolve, Expr.resolve, hname.lexeme]
    exact (he.resolve hr ctx h).refer hr hi _
  | call hcallee _ hargs => exact hargs.resolve hr ctx (hcallee.resolve hr ctx h)
  | get he _ => exact he.resolve hr ctx h
  | set hobject _ he => exact hobject.resolve hr ctx (he.resolve hr ctx h)
  | thisRef hi hk =>
    rw [Expr.resolve, Expr.resolve, hk.lexeme]
    cases ctx.inClass with
    | outside => exact h.fail hr hk
    | plain => exact h.refer hr hi _
    | derived => exact h.refer hr hi _
  | superRef hi hk _ =>
    rw [Expr.resolve, Expr.resolve, hk.lexeme]
    cases ctx.inClass with
    | outside => exact h.fail hr hk
    | plain => exact h.fail hr hk
    | derived => exact h.refer hr hi _

theorem Expr.MatchedAll.resolve (hr : Abreast ρ E c) (ctx : Context) {es es' : List Expr}
    (hes : Expr.MatchedAll ρ es es') {a a' : Analysis} (h : a.Matched ρ E c older older' a') :
    (Expr.resolveAll ctx es a).Matched ρ E c older older' (Expr.resolveAll ctx es' a') := by
  cases hes with
  | nil => exact h
  | cons he hrest => exact hrest.resolve hr ctx (he.resolve hr ctx h)

end

theorem Expr.Matched.resolve_option (hr : Abreast ρ E c) (ctx : Context) {e e' : Option Expr}
    (he : Option.Rel (Expr.Matched ρ) e e') {a a' : Analysis} (h : a.Matched ρ E c older older' a') :
    (Expr.resolveOption ctx e a).Matched ρ E c older older' (Expr.resolveOption ctx e' a') := by
  cases he with
  | none => exact h
  | some he => exact he.resolve hr ctx h

mutual

theorem Stmt.Matched.resolve (hr : Abreast ρ E c) (ctx : Context) {s s' : Stmt}
    (hs : s.Matched ρ s') {a a' : Analysis} (h : a.Matched ρ E c older older' a') :
    (s.resolve ctx a).Matched ρ E c older older' (s'.resolve ctx a') := by
  cases hs with
  | expr he => exact he.resolve hr ctx h
  | print he => exact he.resolve hr ctx h
  | varDecl hname hi => exact (Expr.Matched.resolve_option hr ctx hi (h.declare hr hname)).define hname
  | block hb => exact (hb.resolve hr ctx h.openScope).closeScope
  | branch hcond hyes =>
    rw [Stmt.resolve, Stmt.resolve]
    exact hyes.resolve hr ctx (hcond.resolve hr ctx h)
  | branchElse hcond hyes hno =>
    rw [Stmt.resolve, Stmt.resolve]
    exact hno.resolve hr ctx (hyes.resolve hr ctx (hcond.resolve hr ctx h))
  | loop hcond hbody => exact hbody.resolve hr _ (hcond.resolve hr ctx h)
  | breakLoop hk => exact h.failIf hr _ hk
  | @function decl decl' hd =>
    have hname : decl.name.Matched ρ decl'.name := by
      cases hd with
      | mk hname _ _ => exact hname
    exact hd.resolve hr _ ((h.declare hr hname).define hname)
  | @returnWith _ _ value value' hk hv =>
    have hsome : value'.isSome = value.isSome := by
      cases hv <;> rfl
    rw [Stmt.resolve, Stmt.resolve, hsome]
    exact Expr.Matched.resolve_option hr ctx hv
      ((h.failIf hr _ hk).failIf hr _ hk)
  | classDecl hname hm =>
    rw [Stmt.resolve, Stmt.resolve]
    exact (hm.resolve hr _ (((h.declare hr hname).define hname).openScope.provide _
      (hr.line hname.line))).closeScope
  | @subclassDecl name name' superName superName' i j methods methods' hname hi hsuper hm =>
    have hcheck : (checkSuperclass name (.var i superName) ((a.declare name).define name)).Matched ρ E c
        older older' (checkSuperclass name' (.var j superName') ((a'.declare name').define name')) := by
      dsimp only [checkSuperclass]
      rw [hname.lexeme, hsuper.lexeme]
      exact ((h.declare hr hname).define hname).failIf hr _ hsuper
    have hparent := Expr.Matched.resolve hr { ctx with inClass := .derived } (.var hi hsuper) hcheck
    have hl := hr.line hname.line
    rw [Stmt.resolve, Stmt.resolve]
    exact (hm.resolve hr _ ((hparent.openScope.provide "super" hl).openScope.provide "this"
      hl)).closeScope.closeScope
  | execute _ he => exact he.resolve hr ctx h

theorem Stmt.MatchedAll.resolve (hr : Abreast ρ E c) (ctx : Context) {ss ss' : List Stmt}
    (hss : Stmt.MatchedAll ρ ss ss') {a a' : Analysis} (h : a.Matched ρ E c older older' a') :
    (Stmt.resolveAll ctx ss a).Matched ρ E c older older' (Stmt.resolveAll ctx ss' a') := by
  cases hss with
  | nil => exact h
  | cons hs hrest => exact hrest.resolve hr ctx (hs.resolve hr ctx h)

theorem Routine.Matched.resolve (hr : Abreast ρ E c) (ctx : Context) {r r' : Routine}
    (hd : r.Matched ρ r') {a a' : Analysis} (h : a.Matched ρ E c older older' a') :
    (r.resolve ctx a).Matched ρ E c older older' (r'.resolve ctx a') := by
  cases hd with
  | mk _ hps hb => exact (hb.resolve hr _ (h.openScope.declareAll hr hps)).closeScope

theorem Routine.MatchedAll.resolve (hr : Abreast ρ E c) (ctx : Context) {rs rs' : List Routine}
    (hrs : Routine.MatchedAll ρ rs rs') {a a' : Analysis} (h : a.Matched ρ E c older older' a') :
    (Routine.resolveMethods ctx rs a).Matched ρ E c older older' (Routine.resolveMethods ctx rs' a') := by
  cases hrs with
  | nil => exact h
  | @cons r r' _ _ hd hrest =>
    have hrole : methodRole r'.name = methodRole r.name := by
      cases hd with
      | mk hname _ _ =>
        unfold methodRole
        rw [hname.lexeme]
    rw [Routine.resolveMethods, Routine.resolveMethods, hrole]
    exact hrest.resolve hr ctx (hd.resolve hr _ h)

end

end

end Lox
