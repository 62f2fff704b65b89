import Lox.Proofs.Loop.Shapes
import Lox.Proofs.Match.Trees
import Lox.Proofs.Scope.Places
import Lox.Proofs.WellFormed

/-!
# Twins from two analyses

Two trees that are the same but for the identities, analysed where one has a scope more than the other in which
nothing is declared, have distances that lead to the same variables. So with these on record they are twins.
-/

namespace Lox
namespace Scoping

/-! ## Scopes beside each other -/

theorem Outline.distance_cons (name : String) (o : Outline) (os : List Outline) :
    Outline.distance name (o :: os) =
      if (o name).isSome then some 0 else (Outline.distance name os).map (· + 1) :=
  List.findIdx?_cons

/-- The innermost scope is not that of a superclass. -/
def Unparented (os : List Outline) : Prop := ∀ o ∈ os.head?, o "super" = none

theorem Unparented.empty (os : List Outline) : Unparented (Outline.empty :: os) := by
  intro o ho
  cases ho
  rfl

theorem Unparented.distance_ne {os : List Outline} (h : Unparented os) :
    Outline.distance "super" os ≠ some 0 := by
  cases os with
  | nil => exact nofun
  | cons o os =>
    rw [Outline.distance_cons, h o rfl]
    cases Outline.distance "super" os with
    | none => exact nofun
    | some d => exact nofun

/-- The scopes lie beside each other in that shape. A scope that only one side has is empty, and does not stand
between those of an object and its superclass. -/
inductive Aligned : Shape → List Outline → List Outline → Prop
  | rest (os : List Outline) : Aligned [] os os
  | both {σ : Shape} (o : Outline) {os os' : List Outline} : Aligned σ os os' →
      Aligned (.both :: σ) (o :: os) (o :: os')
  | first {σ : Shape} {os os' : List Outline} : Aligned σ os os' → Unparented os → Unparented os' →
      Aligned (.first :: σ) (Outline.empty :: os) os'
  | second {σ : Shape} {os os' : List Outline} : Aligned σ os os' → Unparented os → Unparented os' →
      Aligned (.second :: σ) os (Outline.empty :: os')

namespace Aligned

variable {σ : Shape} {os os' : List Outline}

/-- A name is found in the same scope. -/
theorem distance (h : Aligned σ os os') (name : String) :
    Option.Rel σ.Meet (Outline.distance name os) (Outline.distance name os') := by
  induction h with
  | rest os =>
    cases Outline.distance name os with
    | none => exact .none
    | some d => exact .some (.beyond d)
  | @both _ o os os' _ ih =>
    rw [Outline.distance_cons, Outline.distance_cons]
    split
    · exact .some .here
    · generalize Outline.distance name os = d at ih
      generalize Outline.distance name os' = d' at ih
      cases ih with
      | none => exact .none
      | some hm => exact .some (.both hm)
  | @first _ os os' _ _ _ ih =>
    rw [Outline.distance_cons]
    generalize Outline.distance name os = d at ih
    generalize Outline.distance name os' = d' at ih ⊢
    cases ih with
    | none => exact .none
    | some hm => exact .some (.first hm)
  | @second _ os os' _ _ _ ih =>
    rw [Outline.distance_cons]
    generalize Outline.distance name os = d at ih ⊢
    generalize Outline.distance name os' = d' at ih
    cases ih with
    | none => exact .none
    | some hm => exact .some (.second hm)

theorem super_innermost (h : Aligned σ os os') :
    Outline.distance "super" os = some 0 ↔ Outline.distance "super" os' = some 0 := by
  cases h with
  | rest => exact Iff.rfl
  | both o h =>
    rw [Outline.distance_cons, Outline.distance_cons]
    split
    · exact Iff.rfl
    · simp
  | first _ _ h' => exact iff_of_false (Unparented.empty _).distance_ne h'.distance_ne
  | second _ h _ => exact iff_of_false h.distance_ne (Unparented.empty _).distance_ne

/-- A superclass is found in the same scope, and the scope just inside is the same too. -/
theorem super (h : Aligned σ os os') :
    Option.Rel (fun d d' => σ.Meet d d' ∧ σ.Meet (d - 1) (d' - 1)) (Outline.distance "super" os)
      (Outline.distance "super" os') := by
  induction h with
  | rest os =>
    cases Outline.distance "super" os with
    | none => exact .none
    | some d => exact .some ⟨.beyond d, .beyond (d - 1)⟩
  | @both _ o os os' h ih =>
    have hzero := h.super_innermost
    rw [Outline.distance_cons, Outline.distance_cons]
    split
    · exact .some ⟨.here, .here⟩
    · generalize Outline.distance "super" os = d at hzero ih
      generalize Outline.distance "super" os' = d' at hzero ih
      cases ih with
      | none => exact .none
      | @some d d' hm =>
        refine .some ⟨.both hm.1, ?_⟩
        simp only [Option.some.injEq] at hzero
        cases d with
        | zero =>
          obtain rfl : d' = 0 := hzero.1 rfl
          exact .here
        | succ d =>
          cases d' with
          | zero => cases hzero.2 rfl
          | succ d' => exact .both hm.2
  | @first _ os os' _ hp _ ih =>
    have hne := hp.distance_ne
    rw [Outline.distance_cons]
    generalize Outline.distance "super" os = d at hne ih
    generalize Outline.distance "super" os' = d' at ih ⊢
    cases ih with
    | none => exact .none
    | @some d d' hm =>
      cases d with
      | zero => exact absurd rfl hne
      | succ d => exact .some ⟨.first hm.1, .first hm.2⟩
  | @second _ os os' _ _ hp ih =>
    have hne := hp.distance_ne
    rw [Outline.distance_cons]
    generalize Outline.distance "super" os = d at ih ⊢
    generalize Outline.distance "super" os' = d' at hne ih
    cases ih with
    | none => exact .none
    | @some d d' hm =>
      cases d' with
      | zero => exact absurd rfl hne
      | succ d' => exact .some ⟨.second hm.1, .second hm.2⟩

theorem declare (h : Aligned σ os os') (hσ : σ.Solid) (name : String) :
    Aligned σ (Outline.declare name os) (Outline.declare name os') := by
  cases h with
  | rest => exact .rest _
  | both _ h => exact .both _ h
  | first => exact hσ.elim
  | second => exact hσ.elim

theorem bind (h : Aligned σ os os') (hσ : σ.Solid) (name : String) :
    Aligned σ (Outline.bind name os) (Outline.bind name os') := by
  cases h with
  | rest => exact .rest _
  | both _ h => exact .both _ h
  | first => exact hσ.elim
  | second => exact hσ.elim

theorem bindAll (h : Aligned σ os os') {names : List String} (hσ : σ.Solid ∨ names = []) :
    Aligned σ (Outline.bindAll names os) (Outline.bindAll names os') := by
  rcases hσ with hσ | rfl
  · induction names generalizing os os' with
    | nil => exact h
    | cons name rest ih => exact ih (h.bind hσ name)
  · exact h

end Aligned

/-! ## What is on record -/

/-- The distances that the visits find are on record. -/
def Recorded (R : Record) (vs : List Visit) : Prop :=
  ∀ v ∈ vs, v.ref.id < R.bound ∧ R.distances[v.ref.id]? = v.distance

theorem recorded_append {R : Record} {vs ws : List Visit} :
    Recorded R (vs ++ ws) ↔ Recorded R vs ∧ Recorded R ws :=
  List.forall_mem_append

theorem Visit.distance_eq (v : Visit) : v.distance =
    if v.ref.access.allowedIn v.inClass then Outline.distance v.ref.name.lexeme (outlines v.scopes)
    else none := by
  rw [Visit.distance, markUsed_fst]

section

variable {R : Record} {σ : Shape} {access : Access} {role : ClassRole} {i j : Nat} {name name' : Token}
  {sites sites' : List Site} {scopes scopes' : List Scope}

theorem Recorded.names (h : Recorded R [⟨⟨access, i, name⟩, role, sites, scopes⟩])
    (h' : Recorded R [⟨⟨access, j, name'⟩, role, sites', scopes'⟩]) (hname : name' = name)
    (ha : Aligned σ (outlines scopes) (outlines scopes')) : R.Names σ i j := by
  subst hname
  obtain ⟨hi, hd⟩ := h _ List.mem_cons_self
  obtain ⟨hj, hd'⟩ := h' _ List.mem_cons_self
  refine .inr ⟨hi, hj, ?_⟩
  rw [hd, hd', Visit.distance_eq, Visit.distance_eq]
  dsimp only
  split
  · exact ha.distance _
  · exact .none

theorem Recorded.supers (h : Recorded R [⟨⟨access, i, name⟩, role, sites, scopes⟩])
    (h' : Recorded R [⟨⟨access, j, name'⟩, role, sites', scopes'⟩]) (hname : name' = name)
    (hsuper : name.lexeme = "super") (ha : Aligned σ (outlines scopes) (outlines scopes')) :
    R.Supers σ i j := by
  subst hname
  obtain ⟨hi, hd⟩ := h _ List.mem_cons_self
  obtain ⟨hj, hd'⟩ := h' _ List.mem_cons_self
  refine .inr ⟨hi, hj, ?_⟩
  rw [hd, hd', Visit.distance_eq, Visit.distance_eq]
  dsimp only
  rw [hsuper]
  split
  · exact ha.super
  · exact .none

end

end Scoping

open Scoping Analysis

/-! ## Copies -/

/-- The same tree up to identities. -/
abbrev Matching.copy : Matching := .anyNode Eq

theorem Token.Matched.eq {t t' : Token} (h : t.Matched .copy t') : t' = t := by
  cases t
  cases t'
  obtain ⟨hk, hx, hl⟩ := h
  cases hk
  cases hx
  cases hl
  rfl

theorem Token.Matched.eq_all {ts ts' : List Token} (h : List.Forall₂ (Token.Matched .copy) ts ts') :
    ts' = ts := by
  induction h with
  | nil => rfl
  | cons h _ ih => rw [h.eq, ih]

theorem Routine.Matched.name_eq {r r' : Routine} (h : r.Matched .copy r') : r'.name = r.name := by
  cases h with
  | mk hname _ _ => exact hname.eq

/-- A copy declares the same names. -/
theorem Stmt.Matched.declared {s s' : Stmt} (h : s.Matched .copy s') : s'.declared = s.declared := by
  cases h with
  | varDecl hn _ => exact congrArg (fun t => [t.lexeme]) hn.eq
  | function hd => exact congrArg (fun t => [t.lexeme]) hd.name_eq
  | classDecl hn _ => exact congrArg (fun t => [t.lexeme]) hn.eq
  | subclassDecl hn _ _ _ => exact congrArg (fun t => [t.lexeme]) hn.eq
  | branch _ hy => exact hy.declared
  | branchElse _ hy hn => rw [Stmt.declared, Stmt.declared, hy.declared, hn.declared]
  | loop _ hb => exact hb.declared
  | _ => rfl

/-! ## Analyses beside each other -/

/-- The scopes that two analyses have open lie beside each other in that shape. -/
def Scoping.Analysis.Aligned (σ : Shape) (a a' : Analysis) : Prop :=
  Scoping.Aligned σ (outlines a.scopes) (outlines a'.scopes)

namespace Scoping.Analysis.Aligned

variable {σ : Shape} {a a' : Analysis}

theorem expr (h : a.Aligned σ a') (ctx : Context) (e e' : Expr) :
    (e.resolve ctx a).Aligned σ (e'.resolve ctx a') := by
  unfold Analysis.Aligned
  rwa [e.outlines_resolve, e'.outlines_resolve]

theorem stmt (h : a.Aligned σ a') (ctx : Context) {s s' : Stmt} (hs : s.Matched .copy s')
    (hσ : σ.Solid ∨ s.declared = []) : (s.resolve ctx a).Aligned σ (s'.resolve ctx a') := by
  unfold Analysis.Aligned
  rw [s.outlines_resolve, s'.outlines_resolve, hs.declared]
  exact Scoping.Aligned.bindAll h hσ

theorem routine (h : a.Aligned σ a') (ctx : Context) (r r' : Routine) :
    (r.resolve ctx a).Aligned σ (r'.resolve ctx a') := by
  unfold Analysis.Aligned
  rwa [r.outlines_resolve, r'.outlines_resolve]

theorem declare (h : a.Aligned σ a') (hσ : σ.Solid) (name : Token) :
    (a.declare name).Aligned σ (a'.declare name) := by
  unfold Analysis.Aligned
  rw [outlines_declare, outlines_declare]
  exact Scoping.Aligned.declare h hσ _

theorem bind (h : a.Aligned σ a') (hσ : σ.Solid) (name : Token) :
    ((a.declare name).define name).Aligned σ ((a'.declare name).define name) := by
  unfold Analysis.Aligned
  rw [outlines_bind, outlines_bind]
  exact Scoping.Aligned.bind h hσ _

theorem openScope (h : a.Aligned σ a') : a.openScope.Aligned (.both :: σ) a'.openScope :=
  Scoping.Aligned.both _ h

theorem provide (h : a.Aligned σ a') (hσ : σ.Solid) (name : String) (line : Nat) :
    (a.provide name line).Aligned σ (a'.provide name line) := by
  unfold Analysis.Aligned
  rw [outlines_provide, outlines_provide]
  exact Scoping.Aligned.bind h hσ _

theorem declareAll (h : a.Aligned σ a') (hσ : σ.Solid) (names : List Token) :
    (a.declareAll names).Aligned σ (a'.declareAll names) := by
  unfold Analysis.Aligned
  rw [outlines_declareAll, outlines_declareAll]
  exact Scoping.Aligned.bindAll h (.inl hσ)

theorem failIf (h : a.Aligned σ a') (b b' : Bool) (t t' : Token) (fault fault' : ScopeFault) :
    (a.failIf b t fault).Aligned σ (a'.failIf b' t' fault') := by
  unfold Analysis.Aligned
  rwa [scopes_failIf, scopes_failIf]

theorem enterClass (h : a.Aligned σ a') (hσ : σ.Solid) (name : Token) :
    (a.enterClass name).Aligned (.both :: σ) (a'.enterClass name) :=
  (h.bind hσ name).openScope.provide trivial _ _

theorem enterSubclass (h : a.Aligned σ a') (hσ : σ.Solid) (name : Token) (e e' : Expr) :
    (a.enterSubclass name e).Aligned σ (a'.enterSubclass name e') := by
  unfold Analysis.Aligned Analysis.enterSubclass
  rw [scopes_checkSuperclass, scopes_checkSuperclass]
  exact h.bind hσ name

theorem enterMethods (h : a.Aligned σ a') (name : Token) :
    (a.enterMethods name).Aligned (.both :: .both :: σ) (a'.enterMethods name) :=
  (h.openScope.provide trivial _ _).openScope.provide trivial _ _

end Scoping.Analysis.Aligned

/-! ## Twins -/

mutual

theorem Expr.twin {R : Record} {σ : Shape} {ctx : Context} {sites sites' : List Site} {a a' : Analysis}
    (e : Expr) {e' : Expr} (h : e.Matched .copy e') (hw : e.WellFormed) (ha : a.Aligned σ a')
    (hr : Recorded R (e.visits ctx sites a)) (hr' : Recorded R (e'.visits ctx sites' a')) :
    e.Twin R σ e' := by
  cases e with
  | literal v =>
    cases h
    exact .literal v
  | group e =>
    cases h with
    | group h => exact .group (e.twin h hw ha hr hr')
  | unary op e =>
    cases h with
    | unary hop h =>
      rw [hop.eq]
      exact .unary op (e.twin h hw ha hr hr')
  | binary l op r =>
    cases h with
    | binary hl hop h =>
      obtain ⟨hvl, hvr⟩ := recorded_append.1 hr
      obtain ⟨hvl', hvr'⟩ := recorded_append.1 hr'
      rw [hop.eq]
      exact .binary op (l.twin hl hw.1 ha hvl hvl') (r.twin h hw.2 (ha.expr ctx _ _) hvr hvr')
  | logical l op r =>
    cases h with
    | logical hl hop h =>
      obtain ⟨hvl, hvr⟩ := recorded_append.1 hr
      obtain ⟨hvl', hvr'⟩ := recorded_append.1 hr'
      rw [hop.eq]
      exact .logical op (l.twin hl hw.1 ha hvl hvl') (r.twin h hw.2 (ha.expr ctx _ _) hvr hvr')
  | var id name =>
    cases h with
    | var _ hn =>
      rw [hn.eq]
      exact .var name (hr.names hr' hn.eq ha)
  | assign id name e =>
    cases h with
    | assign _ hn h =>
      obtain ⟨hve, hvi⟩ := recorded_append.1 hr
      obtain ⟨hve', hvi'⟩ := recorded_append.1 hr'
      rw [hn.eq]
      exact .assign name (hvi.names hvi' hn.eq (ha.expr ctx _ _)) (e.twin h hw ha hve hve')
  | call callee paren args =>
    cases h with
    | call hc hp h =>
      obtain ⟨hvc, hva⟩ := recorded_append.1 hr
      obtain ⟨hvc', hva'⟩ := recorded_append.1 hr'
      rw [hp.eq]
      exact .call paren (callee.twin hc hw.1 ha hvc hvc') (Expr.twinAll args h hw.2 (ha.expr ctx _ _) hva hva')
  | get object name =>
    cases h with
    | get h hn =>
      rw [hn.eq]
      exact .get name (object.twin h hw ha hr hr')
  | set object name e =>
    cases h with
    | set ho hn h =>
      obtain ⟨hve, hvo⟩ := recorded_append.1 hr
      obtain ⟨hve', hvo'⟩ := recorded_append.1 hr'
      rw [hn.eq]
      exact .set name (object.twin ho hw.1 (ha.expr ctx _ _) hvo hvo') (e.twin h hw.2 ha hve hve')
  | thisRef id keyword =>
    cases h with
    | thisRef _ hk =>
      rw [hk.eq]
      exact .thisRef keyword (hr.names hr' hk.eq ha)
  | superRef id keyword method =>
    cases h with
    | superRef _ hk hm =>
      rw [hk.eq, hm.eq]
      exact .superRef keyword method (hr.supers hr' hk.eq hw ha)

theorem Expr.twinAll {R : Record} {σ : Shape} {ctx : Context} {sites sites' : List Site} {a a' : Analysis}
    (es : List Expr) {es' : List Expr} (h : Expr.MatchedAll .copy es es') (hw : Expr.AllWellFormed es)
    (ha : a.Aligned σ a') (hr : Recorded R (Expr.visitsAll ctx sites es a))
    (hr' : Recorded R (Expr.visitsAll ctx sites' es' a')) : Expr.TwinAll R σ es es' := by
  cases es with
  | nil =>
    cases h
    exact .nil
  | cons e rest =>
    cases h with
    | cons h hrest =>
      obtain ⟨hve, hvr⟩ := recorded_append.1 hr
      obtain ⟨hve', hvr'⟩ := recorded_append.1 hr'
      exact .cons (e.twin h hw.1 ha hve hve') (Expr.twinAll rest hrest hw.2 (ha.expr ctx _ _) hvr hvr')

end

theorem Expr.twin_option {R : Record} {σ : Shape} {ctx : Context} {sites sites' : List Site}
    {a a' : Analysis} {e e' : Option Expr} (h : Option.Rel (Expr.Matched .copy) e e')
    (hw : Expr.OptionWellFormed e) (ha : a.Aligned σ a') (hr : Recorded R (Expr.visitsOption ctx sites e a))
    (hr' : Recorded R (Expr.visitsOption ctx sites' e' a')) : Option.Rel (Expr.Twin R σ) e e' := by
  cases h with
  | none => exact .none
  | some h => exact .some (Expr.twin _ h hw ha hr hr')

mutual

/-- Where the innermost scope is one side's own, the statement must declare nothing. -/
theorem Stmt.twin {R : Record} {σ : Shape} {ctx : Context} {sites sites' : List Site} {a a' : Analysis}
    (s : Stmt) {s' : Stmt} (h : s.Matched .copy s') (hw : s.WellFormed) (hσ : σ.Solid ∨ s.declared = [])
    (ha : a.Aligned σ a') (hr : Recorded R (s.visits ctx sites a)) (hr' : Recorded R (s'.visits ctx sites' a')) :
    s.Twin R σ s' := by
  cases s with
  | expr e =>
    cases h with
    | expr h => exact .expr (e.twin h hw ha hr hr')
  | print e =>
    cases h with
    | print h => exact .print (e.twin h hw ha hr hr')
  | varDecl name init =>
    cases h with
    | varDecl hn hi =>
      have hσ := hσ.resolve_right nofun
      rw [hn.eq] at hr' ⊢
      exact .varDecl name hσ (Expr.twin_option hi hw (ha.declare hσ name) hr hr')
  | block body =>
    cases h with
    | block h => exact .block (Stmt.twinAll body h hw trivial ha.openScope hr hr')
  | branch cond yes no =>
    cases no with
    | none =>
      cases h with
      | branch hc hy =>
        obtain ⟨hvc, hvy⟩ := recorded_append.1 hr
        obtain ⟨hvc', hvy'⟩ := recorded_append.1 hr'
        exact .branch (cond.twin hc hw.1 ha hvc hvc') (yes.twin hy hw.2.1 hσ (ha.expr ctx _ _) hvy hvy')
    | some no =>
      cases h with
      | branchElse hc hy hn =>
        obtain ⟨hvc, hv⟩ := recorded_append.1 hr
        obtain ⟨hvy, hvn⟩ := recorded_append.1 hv
        obtain ⟨hvc', hv'⟩ := recorded_append.1 hr'
        obtain ⟨hvy', hvn'⟩ := recorded_append.1 hv'
        have hσy := hσ.imp_right fun h => (List.append_eq_nil_iff.1 h).1
        have hσn := hσ.imp_right fun h => (List.append_eq_nil_iff.1 h).2
        exact .branchElse (cond.twin hc hw.1 ha hvc hvc') (yes.twin hy hw.2.1.1 hσy (ha.expr ctx _ _) hvy hvy')
          (no.twin hn hw.2.2.1 hσn ((ha.expr ctx _ _).stmt ctx hy hσy) hvn hvn')
  | loop cond body =>
    cases h with
    | loop hc hb =>
      obtain ⟨hvc, hvb⟩ := recorded_append.1 hr
      obtain ⟨hvc', hvb'⟩ := recorded_append.1 hr'
      exact .loop (cond.twin hc hw.1 ha hvc hvc') (body.twin hb hw.2.1 hσ (ha.expr ctx _ _) hvb hvb')
  | breakLoop keyword =>
    cases h with
    | breakLoop hk =>
      rw [hk.eq]
      exact .breakLoop keyword
  | function decl =>
    cases h with
    | function hd =>
      have hσ := hσ.resolve_right nofun
      rw [Stmt.visits, hd.name_eq] at hr'
      exact .function hσ (decl.twin hd hw (ha.bind hσ decl.name) hr hr')
  | returnWith keyword value =>
    cases h with
    | returnWith hk hv =>
      rw [hk.eq] at hr' ⊢
      exact .returnWith keyword
        (Expr.twin_option hv hw ((ha.failIf _ _ _ _ _ _).failIf _ _ _ _ _ _) hr hr')
  | classDecl name superclass methods =>
    replace hσ := hσ.resolve_right nofun
    cases superclass with
    | none =>
      cases h with
      | classDecl hn hm =>
        rw [hn.eq] at hr' ⊢
        exact .classDecl name hσ (Routine.twinAll methods hm hw.2 (ha.enterClass hσ name) hr hr')
    | some superclass =>
      cases h with
      | subclassDecl hn hi hs hm =>
        obtain ⟨hvs, hvm⟩ := recorded_append.1 hr
        obtain ⟨hvs', hvm'⟩ := recorded_append.1 hr'
        rw [hn.eq] at hvs' hvm' ⊢
        rw [hs.eq]
        have hsub := ha.enterSubclass hσ name
        exact .subclassDecl name hσ (.var _ (hvs.names hvs' hs.eq (hsub _ _)))
          (Routine.twinAll methods hm hw.2 (((hsub _ _).expr _ _ _).enterMethods name) hvm hvm')
  | execute keyword path =>
    cases h with
    | execute hk h =>
      rw [hk.eq]
      exact .execute keyword (path.twin h hw ha hr hr')

theorem Stmt.twinAll {R : Record} {σ : Shape} {ctx : Context} {sites sites' : List Site} {a a' : Analysis}
    (ss : List Stmt) {ss' : List Stmt} (h : Stmt.MatchedAll .copy ss ss') (hw : Stmt.AllWellFormed ss)
    (hσ : σ.Solid) (ha : a.Aligned σ a') (hr : Recorded R (Stmt.visitsAll ctx sites ss a))
    (hr' : Recorded R (Stmt.visitsAll ctx sites' ss' a')) : Stmt.TwinAll R σ ss ss' := by
  cases ss with
  | nil =>
    cases h
    exact .nil
  | cons s rest =>
    cases h with
    | cons h hrest =>
      obtain ⟨hvs, hvr⟩ := recorded_append.1 hr
      obtain ⟨hvs', hvr'⟩ := recorded_append.1 hr'
      exact .cons (s.twin h hw.1 (.inl hσ) ha hvs hvs')
        (Stmt.twinAll rest hrest hw.2 hσ (ha.stmt ctx h (.inl hσ)) hvr hvr')

theorem Routine.twin {R : Record} {σ : Shape} {ctx : Context} {sites sites' : List Site} {a a' : Analysis}
    (r : Routine) {r' : Routine} (h : r.Matched .copy r') (hw : r.WellFormed) (ha : a.Aligned σ a')
    (hr : Recorded R (r.visits ctx sites a)) (hr' : Recorded R (r'.visits ctx sites' a')) :
    r.Twin R σ r' := by
  cases r with
  | mk name params body =>
    cases h with
    | mk hn hp hb =>
      rw [hn.eq, Token.Matched.eq_all hp] at hr' ⊢
      exact .mk name params (Stmt.twinAll body hb hw trivial (ha.openScope.declareAll trivial params) hr hr')

theorem Routine.twinAll {R : Record} {σ : Shape} {ctx : Context} {sites sites' : List Site}
    {a a' : Analysis} (rs : List Routine) {rs' : List Routine} (h : Routine.MatchedAll .copy rs rs')
    (hw : Routine.AllWellFormed rs) (ha : a.Aligned σ a')
    (hr : Recorded R (Routine.visitsMethods ctx sites rs a))
    (hr' : Recorded R (Routine.visitsMethods ctx sites' rs' a')) : Routine.TwinAll R σ rs rs' := by
  cases rs with
  | nil =>
    cases h
    exact .nil
  | cons r rest =>
    cases h with
    | cons h hrest =>
      obtain ⟨hvr, hvs⟩ := recorded_append.1 hr
      obtain ⟨hvr', hvs'⟩ := recorded_append.1 hr'
      rw [h.name_eq] at hvr' hvs'
      exact .cons (r.twin h hw.1 ha hvr hvr') (Routine.twinAll rest hrest hw.2 (ha.routine _ _ _) hvs hvs')
termination_by structural rs

end

end Lox
