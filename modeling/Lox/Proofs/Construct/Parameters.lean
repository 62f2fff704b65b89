import Lox.Proofs.Flow.Confined
import Lox.Proofs.Inherit.Lineage

/-!
# Parameters and the arguments they stand for

In a program that passed the analysis the parameters of each routine have different names. So in the frame of a call
each parameter is bound to the argument at its own position.
-/

namespace Lox
open Scoping

/-! ## Routines with different parameters -/

mutual

/-- No routine in it has two parameters of one name. -/
def Stmt.Distinct : Stmt → Prop
  | .block body => Stmt.AllDistinct body
  | .branch _ yes none => yes.Distinct
  | .branch _ yes (some no) => yes.Distinct ∧ no.Distinct
  | .loop _ body => body.Distinct
  | .function decl => decl.Distinct
  | .classDecl _ _ methods => Routine.AllDistinct methods
  | .expr _ | .print _ | .varDecl _ _ | .breakLoop _ | .returnWith _ _ | .execute _ _ => True

def Stmt.AllDistinct : List Stmt → Prop
  | [] => True
  | s :: rest => s.Distinct ∧ Stmt.AllDistinct rest

def Routine.Distinct : Routine → Prop
  | ⟨_, params, body⟩ => (params.map Token.lexeme).Nodup ∧ Stmt.AllDistinct body

def Routine.AllDistinct : List Routine → Prop
  | [] => True
  | r :: rest => r.Distinct ∧ Routine.AllDistinct rest

end

theorem Routine.distinct_iff {r : Routine} :
    r.Distinct ↔ (r.params.map Token.lexeme).Nodup ∧ Stmt.AllDistinct r.body := by
  cases r
  exact Iff.rfl

theorem Routine.distinct_of_mem {methods : List Routine} (h : Routine.AllDistinct methods) {r : Routine}
    (hr : r ∈ methods) : r.Distinct := by
  induction methods with
  | nil => cases hr
  | cons r' rest ih =>
    rcases List.mem_cons.1 hr with rfl | hr
    · exact h.1
    · exact ih h.2 hr

/-! ## What the analysis lets pass -/

/-- A name that is declared without a report is new to its scope, and is in it from then on. -/
theorem Analysis.new_of_declare {a : Analysis} {name : Token} {scope : Scope} {rest : List Scope}
    (hs : a.scopes = scope :: rest) (h : (a.declare name).errors = []) :
    scope.has name.lexeme = false ∧ ∃ scope', ((a.declare name).define name).scopes = scope' :: rest ∧
      ∀ other, scope'.has other = (scope.has other || other == name.lexeme) := by
  cases hhas : scope.has name.lexeme with
  | true =>
    simp only [Analysis.declare, hs, hhas, if_true, Analysis.fail] at h
    exact absurd h (List.append_ne_nil_of_right_ne_nil _ (List.cons_ne_nil _ _))
  | false =>
    refine ⟨rfl, (scope.insert name.lexeme ⟨false, false, name.line⟩).insert name.lexeme
      ⟨true, false, name.line⟩, ?_, fun other => ?_⟩
    · simp [Analysis.declare, Analysis.define, hs, hhas]
    · by_cases ho : name.lexeme = other
      · simp [Table.has, ho]
      · simp [Table.has, Table.get?_insert, ho, Ne.symm ho]

theorem Analysis.nodup_of_declareAll {names : List Token} {a : Analysis} {scope : Scope} {rest : List Scope}
    (hs : a.scopes = scope :: rest) (h : (a.declareAll names).errors = []) :
    (names.map Token.lexeme).Nodup ∧ ∀ name ∈ names, scope.has name.lexeme = false := by
  induction names generalizing a scope with
  | nil => exact ⟨List.nodup_nil, List.forall_mem_nil _⟩
  | cons name names ih =>
    have hfirst := Analysis.errors_of_declareAll (a := (a.declare name).define name) h
    rw [Analysis.errors_define] at hfirst
    obtain ⟨hnew, scope', hs', hhas⟩ := Analysis.new_of_declare hs hfirst
    obtain ⟨hnodup, hrest⟩ := ih hs' h
    have hapart : ∀ other ∈ names, scope.has other.lexeme = false ∧ other.lexeme ≠ name.lexeme := by
      intro other ho
      have hother := hrest other ho
      rw [hhas, Bool.or_eq_false_iff] at hother
      exact ⟨hother.1, by simpa using hother.2⟩
    constructor
    · refine List.nodup_cons.2 ⟨fun hmem => ?_, hnodup⟩
      obtain ⟨other, ho, heq⟩ := List.mem_map.1 hmem
      exact (hapart other ho).2 heq
    · exact List.forall_mem_cons.2 ⟨hnew, fun other ho => (hapart other ho).1⟩

mutual

theorem Stmt.distinct_of_resolve {ctx : Context} {a : Analysis} (s : Stmt)
    (h : (s.resolve ctx a).errors = []) : s.Distinct := by
  cases s with
  | block body =>
    rw [Stmt.resolve, Analysis.errors_closeScope] at h
    exact Stmt.distinctAll_of_resolve body h
  | branch cond yes no =>
    cases no with
    | none => exact yes.distinct_of_resolve h
    | some no =>
      have hyes := no.errors_of_resolve h
      exact ⟨yes.distinct_of_resolve hyes, no.distinct_of_resolve h⟩
  | loop cond body => exact body.distinct_of_resolve h
  | function decl => exact decl.distinct_of_resolve h
  | classDecl name superclass methods =>
    cases superclass with
    | none =>
      rw [Stmt.resolve, Analysis.errors_closeScope] at h
      exact Routine.distinctAll_of_resolve methods h
    | some superclass =>
      rw [Stmt.resolve, Analysis.errors_closeScope, Analysis.errors_closeScope] at h
      exact Routine.distinctAll_of_resolve methods h
  | expr _ | print _ | varDecl _ _ | breakLoop _ | returnWith _ _ | execute _ _ => trivial

theorem Stmt.distinctAll_of_resolve {ctx : Context} {a : Analysis} (ss : List Stmt)
    (h : (Stmt.resolveAll ctx ss a).errors = []) : Stmt.AllDistinct ss := by
  cases ss with
  | nil => trivial
  | cons s rest =>
    have hs := Stmt.errors_of_resolveAll rest h
    exact ⟨s.distinct_of_resolve hs, Stmt.distinctAll_of_resolve rest h⟩

theorem Routine.distinct_of_resolve {ctx : Context} {a : Analysis} (r : Routine)
    (h : (r.resolve ctx a).errors = []) : r.Distinct := by
  cases r with
  | mk name params body =>
    rw [Routine.resolve, Analysis.errors_closeScope] at h
    have hparams := Stmt.errors_of_resolveAll body h
    exact ⟨(Analysis.nodup_of_declareAll rfl hparams).1, Stmt.distinctAll_of_resolve body h⟩

theorem Routine.distinctAll_of_resolve {ctx : Context} {a : Analysis} (rs : List Routine)
    (h : (Routine.resolveMethods ctx rs a).errors = []) : Routine.AllDistinct rs := by
  cases rs with
  | nil => trivial
  | cons r rest =>
    have hr := Routine.errors_of_resolveMethods rest h
    exact ⟨r.distinct_of_resolve hr, Routine.distinctAll_of_resolve rest h⟩

end

theorem Stmt.distinct_of_analyse {program : List Stmt} {distances : Distances}
    (h : (Stmt.analyse program distances).errors = []) : Stmt.AllDistinct program :=
  have htop : (Stmt.resolveAll {} program { distances := distances }).errors = [] := h
  Stmt.distinctAll_of_resolve program htop

/-! ## The frame of a call -/

/-- If no two entries have one name, each of them counts. -/
theorem Table.get?_foldl_insert_of_mem {α β : Type} {key : β → String} (value : β → α) {xs : List β}
    (h : (xs.map key).Nodup) (t : Table α) {x : β} (hx : x ∈ xs) :
    (xs.foldl (fun t x => t.insert (key x) (value x)) t).get? (key x) = some (value x) := by
  rw [get?_foldl_insert]
  cases hfind : xs.reverse.find? (key · = key x) with
  | none => simpa using List.find?_eq_none.1 hfind x (List.mem_reverse.2 hx)
  | some y =>
    have hmem := List.mem_reverse.1 (List.mem_of_find?_eq_some hfind)
    have hkey : key y = key x := by simpa using List.find?_some hfind
    rw [List.inj_on_of_nodup_map h hmem hx hkey]
    rfl

/-- Each parameter is bound to the argument at its own position. -/
theorem Closure.get?_frame {f : Closure} (hf : f.decl.Distinct) {args : List Value} (hlen : args.length = f.arity)
    {j : Nat} {p : Token} {v : Value} (hp : f.decl.params[j]? = some p) (hv : args[j]? = some v) :
    (f.frame args).get? p.lexeme = some v := by
  have hkeys : ((f.decl.params.zip args).map fun x => x.1.lexeme) = f.decl.params.map Token.lexeme := by
    have hfst : (f.decl.params.zip args).map Prod.fst = f.decl.params := List.map_fst_zip (Nat.le_of_eq hlen.symm)
    calc ((f.decl.params.zip args).map fun x => x.1.lexeme)
        = ((f.decl.params.zip args).map Prod.fst).map Token.lexeme := List.map_map.symm
      _ = f.decl.params.map Token.lexeme := by rw [hfst]
  have hmem : (p, v) ∈ f.decl.params.zip args := by
    have hj : (f.decl.params.zip args)[j]? = some (p, v) := List.getElem?_zip_eq_some.2 ⟨hp, hv⟩
    exact List.mem_of_getElem? hj
  exact Table.get?_foldl_insert_of_mem (fun x : Token × Value => x.2) (hkeys ▸ (Routine.distinct_iff.1 hf).1) [] hmem

end Lox
