import Lox.Proofs.Scope.Faults
import Lox.Proofs.Scope.Registers

/-!
# The errors of the analysis are those of the rules

Whether an event is at fault follows from what stands around it. The analysis finds out from the scopes that it keeps
and the flags in them. The two agree at every event, and so the errors of a whole program are the faults
of its events, in their order. A program that was read names its superclasses, so no other fault is left.
-/

namespace Lox
namespace Scoping

/-! ## Scopes as the analysis keeps them -/

/-- What a scope says of its names where this one is in its initializer. -/
def Level.outline (initializing : Option String) (level : Level) : Outline :=
  fun x => if x ∈ level.names then some (decide (initializing ≠ some x)) else none

def Nest.outlines (n : Nest) : List Outline :=
  match n.levels with
  | [] => []
  | level :: rest => level.outline n.initializing :: rest.map (Level.outline none)

namespace Nest

variable {n : Nest}

theorem outlines_eq_map (h : n.initializing = none) : n.outlines = n.levels.map (Level.outline none) := by
  unfold outlines
  rw [h]
  cases n.levels <;> rfl

theorem outlines_declare (h : n.initializing = none) (name : String) :
    (n.declare name).outlines = Outline.declare name n.outlines := by
  rw [outlines_eq_map h]
  unfold declare
  split
  case h_1 hlevels =>
    rw [outlines, hlevels]
    rfl
  case h_2 level rest hlevels =>
    rw [hlevels, List.map_cons, Outline.declare]
    split
    case isTrue hmem =>
      rw [outlines_eq_map h, hlevels, if_pos (by simp [Level.outline, hmem])]
      rfl
    case isFalse hmem =>
      rw [if_neg (by simp [Level.outline, hmem]), outlines]
      refine congrArg (· :: _) (funext fun x => ?_)
      by_cases hx : x = name
      · simp [Level.outline, Outline.update, hx]
      · simp [Level.outline, Outline.update, hx, Ne.symm hx]

theorem outlines_define {name : String} (h : n.initializing = none ∨ n.initializing = some name) :
    n.define.outlines = Outline.define name n.outlines := by
  have hvalue : ∀ x, x ≠ name → decide (n.initializing ≠ some x) = true := by
    intro x hx
    rcases h with h | h <;> simp [h, Ne.symm hx]
  unfold outlines define
  cases n.levels with
  | nil => rfl
  | cons level rest =>
    refine congrArg (· :: _) (funext fun x => ?_)
    by_cases hx : x = name
    · subst hx
      by_cases hmem : x ∈ level.names <;> simp [Level.outline, Outline.update, hmem]
    · have hsame : Level.outline none level x = Level.outline n.initializing level x := by
        simp only [Level.outline, hvalue x hx]
        rfl
      rw [hsame]
      split
      · exact (if_neg hx).symm
      · rfl

theorem outlines_openScope (h : n.initializing = none) (names : List String) :
    (n.openScope names).outlines = Level.outline none ⟨n.opened, names⟩ :: n.outlines := by
  rw [outlines_eq_map h, outlines_eq_map (n := n.openScope names) h]
  rfl

theorem outlines_closeScope (h : n.initializing = none) : n.closeScope.outlines = n.outlines.tail := by
  rw [outlines_eq_map h, outlines_eq_map (n := n.closeScope) h]
  exact List.map_tail

end Nest

/-- A superclass is a name. -/
def Act.Named : Act → Prop
  | .inherit _ superclass => ∃ id name, superclass = .var id name
  | _ => True

/-- The analysis keeps these scopes. What is in its initializer is in the innermost of them. -/
structure Analysis.Fits (a : Analysis) (n : Nest) : Prop where
  outlines : outlines a.scopes = n.outlines
  initializing (x : String) : n.initializing = some x → ∃ level ∈ n.levels.head?, x ∈ level.names

namespace Analysis

@[simp] theorem errors_failIf (a : Analysis) (cond : Bool) (t : Token) (fault : ScopeFault) :
    (a.failIf cond t fault).errors = a.errors ++ if cond then [.scopingAt t fault] else [] := by
  unfold failIf
  split
  · rfl
  · exact (List.append_nil _).symm

variable {a : Analysis} {n : Nest}

/-- The innermost scope of the analysis and what stands for it. -/
theorem Fits.head (h : a.Fits n) {level : Level} {rest : List Level} (hl : n.levels = level :: rest) :
    ∃ scope outer, a.scopes = scope :: outer ∧ Scope.outline scope = level.outline n.initializing := by
  have ho := h.outlines
  rw [Nest.outlines, hl] at ho
  cases hs : a.scopes with
  | nil =>
    rw [hs] at ho
    cases ho
  | cons scope outer =>
    rw [hs] at ho
    exact ⟨scope, outer, rfl, (List.cons.inj ho).1⟩

theorem Fits.scopes_nil (h : a.Fits n) (hl : n.levels = []) : a.scopes = [] := by
  have ho := h.outlines
  rw [Nest.outlines, hl] at ho
  exact List.map_eq_nil_iff.1 ho

/-- A name without a value is one in its initializer. -/
theorem Fits.initializing_eq (h : a.Fits n) (name : String) :
    a.initializing name = decide (n.initializing = some name) := by
  have hin := h.initializing name
  unfold Analysis.initializing
  cases hl : n.levels with
  | nil =>
    rw [h.scopes_nil hl]
    rw [hl] at hin
    refine (decide_eq_false fun hi => ?_).symm
    obtain ⟨level, hlevel, -⟩ := hin hi
    cases hlevel
  | cons level rest =>
    obtain ⟨scope, outer, hs, ho⟩ := h.head hl
    have hname : (scope.get? name).map (·.defined) = level.outline n.initializing name :=
      congrFun ho name
    rw [hl] at hin
    rw [hs]
    by_cases hmem : name ∈ level.names
    · rw [Level.outline, if_pos hmem] at hname
      obtain ⟨b, hb, hdefined⟩ := Option.map_eq_some_iff.1 hname
      simp [hb, hdefined]
    · rw [Level.outline, if_neg hmem] at hname
      have hnot : n.initializing ≠ some name := by
        intro hi
        obtain ⟨_, ⟨⟩, hm⟩ := hin hi
        exact hmem hm
      simp [Option.map_eq_none_iff.1 hname, hnot]

theorem Fits.declare_errors (h : a.Fits n) (name : Token) : (a.declare name).errors =
    a.errors ++ match n.levels with
      | [] => []
      | level :: _ => if name.lexeme ∈ level.names then [.scopingAt name .alreadyDeclared] else [] := by
  unfold Analysis.declare
  cases hl : n.levels with
  | nil =>
    rw [h.scopes_nil hl]
    exact (List.append_nil _).symm
  | cons level rest =>
    obtain ⟨scope, outer, hs, ho⟩ := h.head hl
    have hhas : scope.has name.lexeme = decide (name.lexeme ∈ level.names) := by
      have hname : (scope.get? name.lexeme).map (·.defined) = level.outline n.initializing name.lexeme :=
        congrFun ho name.lexeme
      rw [Table.has, ← Option.isSome_map, hname, Level.outline]
      split <;> simp [*]
    rw [hs]
    by_cases hmem : name.lexeme ∈ level.names <;> simp [hhas, hmem, fail]

theorem errors_reference_of_read (h : a.Fits n) (id : Nat) (name : Token) (role : ClassRole) :
    (a.reference role ⟨.read, id, name⟩).errors = a.errors ++
      if n.initializing = some name.lexeme then [.scopingAt name .readInOwnInitializer] else [] := by
  show ((a.failIf _ name .readInOwnInitializer).refer id _).errors = _
  rw [errors_refer, errors_failIf, h.initializing_eq]
  simp

/-- The analysis at an event reports the fault of the event. -/
theorem step_errors {e : Event} (h : a.Fits e.within.toNest) (hn : e.act.Named) :
    (a.step e).errors = a.errors ++ e.fault?.toList := by
  obtain ⟨act, sur⟩ := e
  cases act with
  | refer ref =>
    obtain ⟨access, id, name⟩ := ref
    cases access with
    | read =>
      refine (errors_reference_of_read h id name sur.context.inClass).trans ?_
      dsimp only [Event.fault?]
      split <;> rfl
    | write => exact (errors_refer a id _).trans (List.append_nil _).symm
    | receiver =>
      dsimp only [Analysis.step, Event.fault?, Surroundings.context]
      cases Ancestor.inClass sur.ancestors with
      | outside => rfl
      | plain => exact (errors_refer a id _).trans (List.append_nil _).symm
      | derived => exact (errors_refer a id _).trans (List.append_nil _).symm
    | parent =>
      dsimp only [Analysis.step, Event.fault?, Surroundings.context]
      cases Ancestor.inClass sur.ancestors with
      | outside => rfl
      | plain => rfl
      | derived => exact (errors_refer a id _).trans (List.append_nil _).symm
  | declare name =>
    refine (h.declare_errors name).trans ?_
    dsimp only [Event.fault?]
    cases sur.levels with
    | nil => rfl
    | cons level rest =>
      dsimp only
      split <;> rfl
  | define name => exact (errors_define a name).trans (List.append_nil _).symm
  | inherit name superclass =>
    obtain ⟨id, superName, rfl⟩ := hn
    refine (errors_failIf a _ superName _).trans ?_
    simp only [Event.fault?, beq_iff_eq]
    split <;> rfl
  | breakLoop keyword =>
    refine (errors_failIf a _ keyword _).trans ?_
    cases hloop : Ancestor.inLoop sur.ancestors <;> simp [Event.fault?, Surroundings.context, hloop]
  | returnWith keyword value =>
    refine (errors_failIf _ _ keyword _).trans ?_
    rw [errors_failIf, List.append_assoc]
    cases hroutine : Ancestor.routine sur.ancestors <;> cases value <;>
      simp [Event.fault?, Surroundings.context, hroutine]
  | openScope provided =>
    cases provided with
    | none => exact (List.append_nil _).symm
    | some entry => exact (errors_provide _ _ _).trans (List.append_nil _).symm
  | closeScope => exact (errors_closeScope a).trans (List.append_nil _).symm

theorem outlines_reference (a : Analysis) (role : ClassRole) (ref : Reference) :
    outlines (a.reference role ref).scopes = outlines a.scopes := by
  unfold reference
  split
  · rw [outlines_refer, scopes_failIf]
  · rfl
  · rfl
  · rfl
  · rw [outlines_refer]

theorem Fits.step {e : Event} (h : a.Fits e.within.toNest) (ht : e.act.Timely e.within.toNest) :
    (a.step e).Fits (e.act.next e.within.toNest) := by
  obtain ⟨act, sur⟩ := e
  -- outside of initializers only the scopes are of interest
  have hnone : ∀ {n : Nest}, n.initializing = none → ∀ {b : Analysis},
      Scoping.outlines b.scopes = n.outlines → b.Fits n :=
    fun hi _ ho => ⟨ho, fun x hx => by rw [hi] at hx; cases hx⟩
  have ho := h.outlines
  dsimp only at ho ht h
  cases act with
  | refer ref => exact ⟨(outlines_reference a _ ref).trans ho, h.initializing⟩
  | declare name =>
    refine ⟨(outlines_declare a name).trans (ho ▸ (Nest.outlines_declare ht _).symm), fun x hx => ?_⟩
    dsimp only [Act.next, Nest.declare] at hx ⊢
    split at hx
    · rw [show sur.initializing = none from ht] at hx
      cases hx
    case h_2 level rest hlevels =>
      split at hx
      · rw [show sur.initializing = none from ht] at hx
        cases hx
      case isFalse hmem =>
        cases hx
        rw [if_neg hmem]
        exact ⟨_, rfl, List.mem_cons_self⟩
  | define name =>
    exact hnone rfl ((outlines_define a name).trans (ho ▸ (Nest.outlines_define ht).symm))
  | inherit name superclass =>
    exact ⟨(congrArg Scoping.outlines (scopes_checkSuperclass a name superclass)).trans ho, h.initializing⟩
  | breakLoop keyword =>
    exact ⟨(congrArg Scoping.outlines (scopes_failIf a _ keyword _)).trans ho, h.initializing⟩
  | returnWith keyword value =>
    refine ⟨?_, h.initializing⟩
    rw [Analysis.step, scopes_failIf, scopes_failIf]
    exact ho
  | openScope provided =>
    cases provided with
    | none =>
      refine hnone (n := sur.openScope []) ht ?_
      rw [Nest.outlines_openScope ht, ← ho]
      refine congrArg (· :: _) (funext fun x => ?_)
      simp [Level.outline, Scope.outline]
    | some entry =>
      refine hnone (n := sur.openScope [entry.1]) ht ?_
      rw [Nest.outlines_openScope ht, ← ho, Analysis.step, outlines_provide]
      refine congrArg (· :: _) (funext fun x => ?_)
      by_cases hx : x = entry.1 <;> simp [Level.outline, Outline.update, hx, Scope.outline]
  | closeScope =>
    refine hnone (n := sur.closeScope) ht ?_
    rw [Nest.outlines_closeScope ht, ← ho, Analysis.step, outlines_closeScope]

/-- Event by event, the analysis reports the faults of the events. -/
theorem Fits.run {m : Nest} {es : List Event} (hf : Follows n es m) (h : a.Fits n)
    (hn : ∀ e ∈ es, e.act.Named) :
    (es.foldl Analysis.step a).errors = a.errors ++ es.filterMap Event.fault? ∧
      (es.foldl Analysis.step a).Fits m := by
  induction hf generalizing a with
  | nil => exact ⟨(List.append_nil _).symm, h⟩
  | @cons n m e rest he ht _ ih =>
    subst he
    obtain ⟨hhead, hrest⟩ := List.forall_mem_cons.1 hn
    obtain ⟨herrors, hfits⟩ := ih (h.step ht) hrest
    refine ⟨?_, hfits⟩
    rw [List.foldl_cons, herrors, step_errors h hhead, List.append_assoc, List.filterMap_cons]
    cases e.fault? <;> rfl

end Analysis

/-! ## Programs that were read -/

/-- What names a variable so. -/
def Access.kind : Access → Kind
  | read | write => .identifier
  | receiver => .keyword .thisKw
  | parent => .keyword .superKw

/-- The words that an act is about are of their kind, and all of them are in `T`. -/
def Act.Written (T : Token → Prop) : Act → Prop
  | .refer ref => T ref.name ∧ ref.name.kind = ref.access.kind
  | .declare name => T name ∧ name.kind = .identifier
  | .inherit _ superclass =>
    ∃ id name, superclass = .var id name ∧ T name ∧ name.kind = .identifier
  | .breakLoop keyword => T keyword ∧ keyword.kind = .keyword .breakKw
  | .returnWith keyword _ => T keyword ∧ keyword.kind = .keyword .returnKw
  | _ => True

theorem Act.Written.named {T : Token → Prop} {act : Act} (h : act.Written T) : act.Named := by
  cases act with
  | inherit name superclass =>
    obtain ⟨id, superName, hs, -⟩ := h
    exact ⟨id, superName, hs⟩
  | _ => trivial

/-- All events are about words in `T`. -/
def AllWritten (T : Token → Prop) (es : List Event) : Prop := ∀ e ∈ es, e.act.Written T

def Reference.AllWritten (T : Token → Prop) (refs : List Reference) : Prop :=
  ∀ ref ∈ refs, (Act.refer ref).Written T

variable {T : Token → Prop}

@[simp] theorem allWritten_nil : AllWritten T [] := List.forall_mem_nil _

@[simp] theorem allWritten_cons {e : Event} {es : List Event} :
    AllWritten T (e :: es) ↔ e.act.Written T ∧ AllWritten T es := List.forall_mem_cons

@[simp] theorem allWritten_append {es fs : List Event} :
    AllWritten T (es ++ fs) ↔ AllWritten T es ∧ AllWritten T fs := List.forall_mem_append

@[simp] theorem allWritten_refers {sur : Surroundings} {refs : List Reference} :
    AllWritten T (sur.refers refs) ↔ Reference.AllWritten T refs := List.forall_mem_map

@[simp] theorem Reference.allWritten_nil : Reference.AllWritten T [] := List.forall_mem_nil _

@[simp] theorem Reference.allWritten_singleton {ref : Reference} :
    Reference.AllWritten T [ref] ↔ T ref.name ∧ ref.name.kind = ref.access.kind :=
  List.forall_mem_singleton

@[simp] theorem Reference.allWritten_append {refs refs' : List Reference} :
    Reference.AllWritten T (refs ++ refs') ↔
      Reference.AllWritten T refs ∧ Reference.AllWritten T refs' := List.forall_mem_append

theorem allWritten_bindsAll {names : List Token} (h : ∀ t ∈ names, T t ∧ t.kind = .identifier)
    (sur : Surroundings) : AllWritten T (sur.bindsAll names) := by
  induction names generalizing sur with
  | nil => exact allWritten_nil
  | cons name rest ih =>
    obtain ⟨hname, hrest⟩ := List.forall_mem_cons.1 h
    refine allWritten_append.2 ⟨?_, ih hrest _⟩
    exact List.forall_mem_cons.2 ⟨hname, List.forall_mem_singleton.2 trivial⟩

end Scoping

namespace Grammar
open Scoping

theorem Names.mem {ts names : List Token} (h : Names ts names) :
    ∀ t ∈ names, t ∈ ts ∧ t.kind = .identifier := by
  induction h with
  | one hk => simp [hk]
  | more hk _ _ ih =>
    refine List.forall_mem_cons.2 ⟨⟨List.mem_cons_self, hk⟩, fun t ht => ?_⟩
    exact ⟨List.mem_cons_of_mem _ (List.mem_cons_of_mem _ (ih t ht).1), (ih t ht).2⟩

theorem Parameters.mem {ts names : List Token} (h : Parameters ts names) :
    ∀ t ∈ names, t ∈ ts ∧ t.kind = .identifier := by
  cases h with
  | none => exact List.forall_mem_nil _
  | some h _ => exact h.mem

/-- Wherever it stands, what a rule builds has no events but about words in `T`. -/
def Rule.Written (T : Token → Prop) : (r : Rule) → r.Tree → Prop
  | .declarations, t => ∀ sur, AllWritten T (Stmt.eventsAll sur t)
  | .declaration, t | .varDecl, t | .exprStmt, t | .statement _, t =>
    ∀ sur, AllWritten T (Stmt.events sur t)
  | .methods, t => ∀ sur, AllWritten T (Routine.eventsAll sur t)
  | .function, t =>
    (T t.name ∧ t.name.kind = .identifier) ∧ ∀ sur, AllWritten T (Routine.events sur t)
  | .forInit, none => True
  | .forInit, some t => ∀ sur, AllWritten T (Stmt.events sur t)
  | .optional, t => Reference.AllWritten T (Expr.referencesOption t)
  | .arguments, t => Reference.AllWritten T (Expr.referencesAll t)
  | .expression, t | .operation _, t | .call, t | .primary, t =>
    Reference.AllWritten T (Expr.references t)

theorem written_forLoop {T : Token → Prop} {init : Option Stmt} {cond increment : Option Expr}
    {body : Stmt} (hi : Rule.forInit.Written T init) (hc : Rule.optional.Written T cond)
    (hu : Rule.optional.Written T increment) (hb : ∀ sur, AllWritten T (body.events sur))
    (sur : Surroundings) : AllWritten T ((Parse.forLoop init cond increment body).events sur) := by
  cases init <;> cases cond <;> cases increment <;>
    simp_all [Parse.forLoop, Rule.Written, Stmt.events, Stmt.eventsAll, Expr.references,
      Expr.referencesOption, Act.Written]

theorem Derives.written {T : Token → Prop} {nearest : Bool} {r : Rule} {ts : List Token} {t : r.Tree}
    (h : Derives nearest r ts t) (hts : ∀ t ∈ ts, T t) : r.Written T t := by
  induction h with
  | function hname _ hparams _ _ _ _ ih =>
    simp only [List.forall_mem_cons, List.forall_mem_append] at hts
    obtain ⟨hn, -, hp, -, -, hb, -⟩ := hts
    refine ⟨⟨hn, hname⟩, fun sur => ?_⟩
    have hps := allWritten_bindsAll fun t ht => ⟨hp t (hparams.mem t ht).1, (hparams.mem t ht).2⟩
    simp [Routine.events, Act.Written, hps, ih hb _]
  | forStmt _ _ _ _ _ _ _ _ ihi ihc ihu ih =>
    simp only [List.forall_mem_cons, List.forall_mem_append] at hts
    obtain ⟨-, -, hi, hc, -, hu, -, hb⟩ := hts
    rw [forTree_eq]
    exact written_forLoop (ihi hi) (ihc hc) (ihu hu) (ih hb)
  | operation _ hop _ _ ihl ihr =>
    simp only [List.forall_mem_cons, List.forall_mem_append] at hts
    have hrefs := Reference.allWritten_append.2 ⟨ihl hts.1, ihr hts.2.2⟩
    rcases hop.tree_eq with rfl | rfl <;> exact hrefs
  | _ =>
    simp_all [Rule.Written, Stmt.events, Stmt.eventsAll, Routine.eventsAll, Expr.references,
      Expr.referencesAll, Expr.referencesOption, Act.Written, Access.kind, Surroundings.binds]

end Grammar

open Scoping

/-- Whatever tokens it was read from, a program is written in them. -/
theorem Stmt.allWritten_of_parse {tokens : List Token} {nextId : Nat} {program : List Stmt}
    (h : (Stmt.parse tokens nextId).1 = .ok program) (sur : Surroundings) :
    AllWritten (· ∈ tokens) (Stmt.eventsAll sur program) :=
  (Stmt.parse_sound h).1.written (fun _ ht => (List.takeWhile_prefix _).subset ht) sur

theorem Scoping.Analysis.fits_start (distances : Distances) :
    ({ distances := distances } : Analysis).Fits {} :=
  ⟨rfl, nofun⟩

/-- The errors about a program are the faults of its events. -/
theorem Stmt.errors_analyse {tokens : List Token} {nextId : Nat} {program : List Stmt}
    (h : (Stmt.parse tokens nextId).1 = .ok program) (distances : Distances) :
    (Stmt.analyse program distances).errors = (Stmt.eventsAll {} program).filterMap Event.fault? := by
  have hrun := (Analysis.fits_start distances).run (Stmt.followsAll {} rfl program)
    fun e he => (Stmt.allWritten_of_parse h {} e he).named
  rw [(Stmt.runsAll {} [] program _).leads] at hrun
  exact hrun.1

/-- A statement closes the scopes that it opens. -/
theorem Stmt.length_scopes_resolve (ctx : Context) (s : Stmt) (a : Analysis) :
    (s.resolve ctx a).scopes.length = a.scopes.length := by
  have hlength : ∀ (names : List String) (os : List Outline),
      (Outline.bindAll names os).length = os.length := by
    intro names
    induction names with
    | nil => exact fun _ => rfl
    | cons name rest ih => exact fun os => (ih _).trans (by cases os <;> rfl)
  have ho := congrArg List.length (s.outlines_resolve ctx a)
  rwa [hlength, outlines, outlines, List.length_map, List.length_map] at ho

/-- The errors about a program that was read are the faults of its events, each as it follows from what stands around
the event, in the order of the program, and there are no others. A walk that keeps in registers what
encloses the present place makes the same analysis, and after every statement finds as many scopes and loops, and the
same function and class, as before it. -/
theorem Stmt.analyse_faults {tokens : List Token} {nextId : Nat} {program : List Stmt}
    (h : (Stmt.parse tokens nextId).1 = .ok program) (distances : Distances) :
    (Stmt.analyse program distances).errors = (Stmt.eventsAll {} program).filterMap Event.fault? ∧
    ∀ order : Order, order.Fair →
      (Stmt.walkAll order program (.start distances)).analysis =
        Stmt.resolveAll {} program { distances := distances } ∧
      ∀ (s : Stmt) (w : Walker),
        (s.walk order w).analysis.scopes.length = w.analysis.scopes.length ∧
        (s.walk order w).routine = w.routine ∧ (s.walk order w).inClass = w.inClass ∧
        (s.walk order w).loops = w.loops := by
  refine ⟨Stmt.errors_analyse h distances, fun order ho => ⟨?_, fun s w => ?_⟩⟩
  · rw [Stmt.walkAll_eq ho]
    rfl
  · rw [s.walk_eq ho]
    exact ⟨s.length_scopes_resolve w.context w.analysis, rfl, rfl, rfl⟩

/-- A class that inherits from itself, in a loop, in a function. One of its methods is left by `break`, and
its `init` returns something. -/
def misplacedText : String :=
  "fun f() \x7b while (true) \x7b class A < A \x7b m() \x7b break; \x7d init() \x7b return this; \x7d \x7d \x7d \x7d"

set_option maxRecDepth 20000 in
theorem faults_misplacedText :
    (match (Stmt.parse (Item.tokens (Token.scan misplacedText)) 0).1 with
      | .ok program => some ((Stmt.eventsAll {} program).filterMap Event.fault?)
      | .error _ => none) =
    some [.scopingAt ⟨.identifier, "A", 1⟩ .inheritsFromItself,
      .scopingAt ⟨.keyword .breakKw, "break", 1⟩ .breakOutsideLoop,
      .scopingAt ⟨.keyword .returnKw, "return", 1⟩ .initializerReturnsValue] := by
  cbv

theorem Stmt.analyse_faults_misplacedText :
    ∃ program, (Stmt.parse (Item.tokens (Token.scan misplacedText)) 0).1 = .ok program ∧
      (Stmt.analyse program {}).errors =
        [.scopingAt ⟨.identifier, "A", 1⟩ .inheritsFromItself,
          .scopingAt ⟨.keyword .breakKw, "break", 1⟩ .breakOutsideLoop,
          .scopingAt ⟨.keyword .returnKw, "return", 1⟩ .initializerReturnsValue] := by
  have hfaults := faults_misplacedText
  split at hfaults
  case h_1 program hparse =>
    exact ⟨program, hparse, (Stmt.analyse_faults hparse {}).1.trans (Option.some.inj hfaults)⟩
  case h_2 => cases hfaults

end Lox
