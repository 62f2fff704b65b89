import Mathlib.Data.List.Forall2
import Lox.Program.Parse

/-!
# Relations that all rules keep

A relation between computations on two sources of tokens may hold of every single step, and of what is composed of
related computations. Then it holds between the two readings by one rule, to any two depths: this is proved once here,
one rule after another. What goes together, of tokens, identities and trees, is up to the relation too.
-/

namespace Lox
namespace Parse

/-- What goes together in two readings: trees of the same form whose parts go together. -/
structure Kinship where
  token : Token → Token → Prop
  node : Nat → Nat → Prop
  expr : Expr → Expr → Prop
  stmt : Stmt → Stmt → Prop
  routine : Routine → Routine → Prop
  kind {t t' : Token} : token t t' → t'.kind = t.kind
  literal (v : Literal) : expr (.literal v) (.literal v)
  group {e e' : Expr} : expr e e' → expr (.group e) (.group e')
  unary {op op' : Token} {e e' : Expr} : token op op' → expr e e' → expr (.unary op e) (.unary op' e')
  binary {l l' r r' : Expr} {op op' : Token} : expr l l' → token op op' → expr r r' →
    expr (.binary l op r) (.binary l' op' r')
  logical {l l' r r' : Expr} {op op' : Token} : expr l l' → token op op' → expr r r' →
    expr (.logical l op r) (.logical l' op' r')
  var {i i' : Nat} {t t' : Token} : node i i' → token t t' → expr (.var i t) (.var i' t')
  call {e e' : Expr} {t t' : Token} {args args' : List Expr} : expr e e' → token t t' → List.Forall₂ expr args args' →
    expr (.call e t args) (.call e' t' args')
  get {e e' : Expr} {t t' : Token} : expr e e' → token t t' → expr (.get e t) (.get e' t')
  thisRef {i i' : Nat} {t t' : Token} : node i i' → token t t' → expr (.thisRef i t) (.thisRef i' t')
  superRef {i i' : Nat} {t t' m m' : Token} : node i i' → token t t' → token m m' →
    expr (.superRef i t m) (.superRef i' t' m')
  exprStmt {e e' : Expr} : expr e e' → stmt (.expr e) (.expr e')
  print {e e' : Expr} : expr e e' → stmt (.print e) (.print e')
  varDecl {t t' : Token} {o o' : Option Expr} : token t t' → Option.Rel expr o o' → stmt (.varDecl t o) (.varDecl t' o')
  block {ss ss' : List Stmt} : List.Forall₂ stmt ss ss' → stmt (.block ss) (.block ss')
  branch {e e' : Expr} {s s' : Stmt} : expr e e' → stmt s s' → stmt (.branch e s none) (.branch e' s' none)
  branchElse {e e' : Expr} {s s' u u' : Stmt} : expr e e' → stmt s s' → stmt u u' →
    stmt (.branch e s (some u)) (.branch e' s' (some u'))
  loop {e e' : Expr} {s s' : Stmt} : expr e e' → stmt s s' → stmt (.loop e s) (.loop e' s')
  breakLoop {t t' : Token} : token t t' → stmt (.breakLoop t) (.breakLoop t')
  function {r r' : Routine} : routine r r' → stmt (.function r) (.function r')
  returnWith {t t' : Token} {o o' : Option Expr} : token t t' → Option.Rel expr o o' →
    stmt (.returnWith t o) (.returnWith t' o')
  classDecl {t t' : Token} {rs rs' : List Routine} : token t t' → List.Forall₂ routine rs rs' →
    stmt (.classDecl t none rs) (.classDecl t' none rs')
  subclassDecl {t t' u u' : Token} {i i' : Nat} {rs rs' : List Routine} : token t t' → node i i' → token u u' →
    List.Forall₂ routine rs rs' → stmt (.classDecl t (some (.var i u)) rs) (.classDecl t' (some (.var i' u')) rs')
  execute {t t' : Token} {e e' : Expr} : token t t' → expr e e' → stmt (.execute t e) (.execute t' e')
  declared {t t' : Token} {ps ps' : List Token} {ss ss' : List Stmt} : token t t' → List.Forall₂ token ps ps' →
    List.Forall₂ stmt ss ss' → routine ⟨t, ps, ss⟩ ⟨t', ps', ss'⟩

namespace Kinship

theorem join (K : Kinship) (level : Level) {l l' r r' : Expr} {op op' : Token} (hl : K.expr l l')
    (ho : K.token op op') (hr : K.expr r r') : K.expr (level.join l op r) (level.join l' op' r') := by
  cases level with
  | or | and => exact K.logical hl ho hr
  | _ => exact K.binary hl ho hr

theorem forLoop (K : Kinship) {init init' : Option Stmt} {cond cond' next next' : Option Expr} {body body' : Stmt}
    (hi : Option.Rel K.stmt init init') (hc : Option.Rel K.expr cond cond') (hn : Option.Rel K.expr next next')
    (hb : K.stmt body body') : K.stmt (Parse.forLoop init cond next body) (Parse.forLoop init' cond' next' body') := by
  have hcond : K.expr (cond.getD (.literal (.bool true))) (cond'.getD (.literal (.bool true))) := by
    cases hc with
    | none => exact K.literal _
    | some he => exact he
  unfold Parse.forLoop
  cases hn with
  | none =>
    cases hi with
    | none => exact K.loop hcond hb
    | some hfirst => exact K.block (.cons hfirst (.cons (K.loop hcond hb) .nil))
  | some he =>
    have hround := K.block (.cons hb (.cons (K.exprStmt he) .nil))
    cases hi with
    | none => exact K.loop hcond hround
    | some hfirst => exact K.block (.cons hfirst (.cons (K.loop hcond hround) .nil))

theorem eq_of_forall₂ {α : Type} {as bs : List α} (h : List.Forall₂ Eq as bs) : as = bs := by
  rwa [List.forall₂_eq_eq_eq] at h

theorem eq_of_rel {α : Type} {a b : Option α} (h : Option.Rel Eq a b) : a = b := by
  cases h with
  | none => rfl
  | some h => rw [h]

/-- The same in both. -/
def same : Kinship where
  token := Eq
  node := Eq
  expr := Eq
  stmt := Eq
  routine := Eq
  kind h := h ▸ rfl
  literal _ := rfl
  group h := h ▸ rfl
  unary ho h := ho ▸ h ▸ rfl
  binary hl ho hr := hl ▸ ho ▸ hr ▸ rfl
  logical hl ho hr := hl ▸ ho ▸ hr ▸ rfl
  var hi ht := hi ▸ ht ▸ rfl
  call h ht hs := by rw [h, ht, eq_of_forall₂ hs]
  get h ht := h ▸ ht ▸ rfl
  thisRef hi ht := hi ▸ ht ▸ rfl
  superRef hi ht hm := hi ▸ ht ▸ hm ▸ rfl
  exprStmt h := h ▸ rfl
  print h := h ▸ rfl
  varDecl ht ho := by rw [ht, eq_of_rel ho]
  block hs := by rw [eq_of_forall₂ hs]
  branch he hs := he ▸ hs ▸ rfl
  branchElse he hs hu := he ▸ hs ▸ hu ▸ rfl
  loop he hs := he ▸ hs ▸ rfl
  breakLoop ht := ht ▸ rfl
  function h := h ▸ rfl
  returnWith ht ho := by rw [ht, eq_of_rel ho]
  classDecl ht hs := by rw [ht, eq_of_forall₂ hs]
  subclassDecl ht hi hu hs := by rw [ht, hi, hu, eq_of_forall₂ hs]
  execute ht he := ht ▸ he ▸ rfl
  declared ht hp hs := by rw [ht, eq_of_forall₂ hp, eq_of_forall₂ hs]

end Kinship

variable {ε σ ε' σ' : Type} [Source ε σ] [Source ε' σ']

/-- A relation that holds of what readings are made of. -/
structure Relates (K : Kinship)
    (R : {α β : Type} → (α → β → Prop) → EStateM ε σ α → EStateM ε' σ' β → Prop) : Prop where
  pure {α β : Type} {A : α → β → Prop} {a : α} {b : β} : A a b → R A (Pure.pure a) (Pure.pure b)
  bind {α β γ δ : Type} {A : α → β → Prop} {B : γ → δ → Prop} {p : EStateM ε σ α} {q : EStateM ε' σ' β}
    {f : α → EStateM ε σ γ} {g : β → EStateM ε' σ' δ} : R A p q → (∀ a b, A a b → R B (f a) (g b)) →
    R B (p >>= f) (q >>= g)
  peek : R K.token peek peek
  atEnd : R Eq atEnd atEnd
  sees (k : Kind) : R Eq (sees k) (sees k)
  readIf (p : Kind → Bool) : R (Option.Rel K.token) (readIf p) (readIf p)
  skip : R (fun _ _ => True) skip skip
  reject {α β : Type} {A : α → β → Prop} (what : Expected) : R A (reject (.expected what)) (reject (.expected what))
  report {t t' : Token} {fault : SyntaxFault} : K.token t t' → (∀ wording, fault ≠ .custom wording) →
    R (fun _ _ => True) (report t fault) (report t' fault)
  freshId : R K.node freshId freshId
  assignTo {target target' value value' : Expr} {t t' : Token} : K.expr target target' → K.token t t' →
    K.expr value value' → R K.expr (assignTo target t value) (assignTo target' t' value')
  recovering {α β : Type} {A : α → β → Prop} {p : EStateM ε σ α} {q : EStateM ε' σ' β} : R A p q →
    R (Option.Rel A) (recovering p) (recovering q)

variable {K : Kinship} {R : {α β : Type} → (α → β → Prop) → EStateM ε σ α → EStateM ε' σ' β → Prop}

/-! ## Composed steps -/

namespace Relates

variable {α β γ δ : Type} {A : α → β → Prop} {B : γ → δ → Prop} (hr : Relates K R)
include hr

omit hr [Source ε σ] [Source ε' σ'] in
theorem ite {c : Prop} [Decidable c] {p p' : EStateM ε σ α} {q q' : EStateM ε' σ' β} (h : R A p q) (h' : R A p' q') :
    R A (if c then p else p') (if c then q else q') := by
  split
  · exact h
  · exact h'

theorem map {p : EStateM ε σ α} {q : EStateM ε' σ' β} {f : α → γ} {g : β → δ} (h : R A p q)
    (hf : ∀ a b, A a b → B (f a) (g b)) : R B (f <$> p) (g <$> q) := by
  rw [map_eq_pure_bind, map_eq_pure_bind]
  exact hr.bind h fun a b hab => hr.pure (hf a b hab)

theorem mono {B : α → β → Prop} {p : EStateM ε σ α} {q : EStateM ε' σ' β} (h : R A p q)
    (hab : ∀ a b, A a b → B a b) : R B p q := by
  have hb := hr.bind h fun a b hab' => hr.pure (hab a b hab')
  rwa [bind_pure, bind_pure] at hb

/-- What both sources answer alike decides how to go on. -/
theorem test {p : EStateM ε σ Bool} {q : EStateM ε' σ' Bool} {f : Bool → EStateM ε σ γ} {g : Bool → EStateM ε' σ' δ}
    (h : R Eq p q) (hf : ∀ b, R B (f b) (g b)) : R B (p >>= f) (q >>= g) :=
  hr.bind h fun b _ hb => hb ▸ hf b

/-- One goes on with the token that was read, or without. -/
theorem read {p : Kind → Bool} {f : Option Token → EStateM ε σ γ} {g : Option Token → EStateM ε' σ' δ}
    (hsome : ∀ t t', K.token t t' → R B (f (some t)) (g (some t'))) (hnone : R B (f none) (g none)) :
    R B (Parse.readIf p >>= f) (Parse.readIf p >>= g) := by
  refine hr.bind (hr.readIf p) fun o o' ho => ?_
  cases ho with
  | none => exact hnone
  | some ht => exact hsome _ _ ht

theorem accept {k : Kind} {f : Option Token → EStateM ε σ γ} {g : Option Token → EStateM ε' σ' δ}
    (hsome : ∀ t t', K.token t t' → R B (f (some t)) (g (some t'))) (hnone : R B (f none) (g none)) :
    R B (Parse.accept k >>= f) (Parse.accept k >>= g) :=
  hr.read hsome hnone

theorem expect (k : Kind) (what : Expected) : R K.token (expect k what) (expect k what) :=
  hr.accept (fun _ _ ht => hr.pure ht) (hr.reject what)

theorem semicolon (what : Expected) : R (fun _ _ => True) (semicolon what) (semicolon what) :=
  hr.map (hr.expect _ what) fun _ _ _ => trivial

/-- Past a token, and on. -/
theorem past {p : EStateM ε σ γ} {q : EStateM ε' σ' δ} (h : R B p q) : R B (do Parse.skip; p) (do Parse.skip; q) :=
  hr.bind hr.skip fun _ _ _ => h

theorem superReference {t t' : Token} (ht : K.token t t') : R K.expr (superReference t) (superReference t') :=
  hr.bind (hr.expect _ _) fun _ _ _ => hr.bind (hr.expect _ _) fun _ _ hm =>
    hr.bind hr.freshId fun _ _ hi => hr.pure (K.superRef hi ht hm)

/-- Too many of them or not, what comes next is the same. -/
theorem counted {c : Prop} [Decidable c] {fault : SyntaxFault} (hf : ∀ wording, fault ≠ .custom wording)
    {p : EStateM ε σ γ} {q : EStateM ε' σ' δ} (h : R B p q) :
    R B (do if c then Parse.report (← Parse.peek) fault
            p)
      (do if c then Parse.report (← Parse.peek) fault
          q) :=
  ite (hr.bind hr.peek fun _ _ ht => hr.bind (hr.report ht hf) fun _ _ _ => h) h

end Relates

/-! ## The rules -/

/-- All rules, to depths `n` and `k`. -/
structure RulesRelate (K : Kinship)
    (R : {α β : Type} → (α → β → Prop) → EStateM ε σ α → EStateM ε' σ' β → Prop) (n k : Nat) : Prop where
  expression : R K.expr (expression n) (expression k)
  operation (level : Level) : R K.expr (operation n level) (operation k level)
  operand (level : Level) : R K.expr (operand n level) (operand k level)
  operationRest (level : Level) {e e' : Expr} : K.expr e e' →
    R K.expr (operationRest n level e) (operationRest k level e')
  unary : R K.expr (unary n) (unary k)
  suffixed : R K.expr (suffixed n) (suffixed k)
  suffixes {e e' : Expr} : K.expr e e' → R K.expr (suffixes n e) (suffixes k e')
  arguments (count : Nat) : R (List.Forall₂ K.expr) (arguments n count) (arguments k count)
  primary : R K.expr (primary n) (primary k)
  parameters (count : Nat) : R (List.Forall₂ K.token) (parameters n count) (parameters k count)
  declaration : R (Option.Rel K.stmt) (declaration n) (declaration k)
  classDeclaration : R K.stmt (classDeclaration n) (classDeclaration k)
  methods : R (List.Forall₂ K.routine) (methods n) (methods k)
  routine (kind : RoutineKind) : R K.routine (routine n kind) (routine k kind)
  block : R (List.Forall₂ K.stmt) (block n) (block k)
  statement : R K.stmt (statement n) (statement k)
  forStatement : R K.stmt (forStatement n) (forStatement k)
  ifStatement : R K.stmt (ifStatement n) (ifStatement k)
  program : R (List.Forall₂ K.stmt) (program n) (program k)

variable {n k : Nat}

namespace RulesRelate

variable (hr : Relates K R) (ih : RulesRelate K R n k)
include hr ih

theorem next_expression : R K.expr (Parse.expression (n + 1)) (Parse.expression (k + 1)) :=
  hr.bind (ih.operation _) fun _ _ ht => hr.accept
    (fun _ _ he => hr.bind ih.expression fun _ _ hv => hr.assignTo ht he hv) (hr.pure ht)

omit hr in
theorem next_operand (level : Level) : R K.expr (Parse.operand (n + 1) level) (Parse.operand (k + 1) level) := by
  unfold Parse.operand
  cases level.tighter? with
  | some tighter => exact ih.operation tighter
  | none => exact ih.unary

theorem next_operationRest (level : Level) {e e' : Expr} (he : K.expr e e') :
    R K.expr (Parse.operationRest (n + 1) level e) (Parse.operationRest (k + 1) level e') :=
  hr.read (fun _ _ ho => hr.bind (ih.operand level) fun _ _ h => ih.operationRest level (K.join level he ho h))
    (hr.pure he)

theorem next_unary : R K.expr (Parse.unary (n + 1)) (Parse.unary (k + 1)) :=
  hr.read (fun _ _ ho => hr.bind ih.unary fun _ _ he => hr.pure (K.unary ho he)) ih.suffixed

theorem next_suffixes {e e' : Expr} (he : K.expr e e') :
    R K.expr (Parse.suffixes (n + 1) e) (Parse.suffixes (k + 1) e') := by
  have hrest (args args' : List Expr) (hargs : List.Forall₂ K.expr args args') : R K.expr
      (do let paren ← Parse.expect (.symbol .rightParen) .argumentsEnd
          Parse.suffixes n (.call e paren args))
      (do let paren ← Parse.expect (.symbol .rightParen) .argumentsEnd
          Parse.suffixes k (.call e' paren args')) :=
    hr.bind (hr.expect _ _) fun _ _ hp => ih.suffixes (K.call he hp hargs)
  refine hr.accept (fun _ _ _ => hr.test (hr.sees _) fun _ => ?_)
    (hr.accept (fun _ _ _ => hr.bind (hr.expect _ _) fun _ _ hn => ih.suffixes (K.get he hn)) (hr.pure he))
  exact Relates.ite (hr.bind (hr.pure .nil) hrest) (hr.bind (ih.arguments 0) hrest)

theorem next_arguments (count : Nat) :
    R (List.Forall₂ K.expr) (Parse.arguments (n + 1) count) (Parse.arguments (k + 1) count) :=
  hr.counted (by nofun) (hr.bind ih.expression fun _ _ he => hr.accept
    (fun _ _ _ => hr.bind (ih.arguments _) fun _ _ hes => hr.pure (.cons he hes)) (hr.pure (.cons he .nil)))

theorem next_primary : R K.expr (Parse.primary (n + 1)) (Parse.primary (k + 1)) := by
  refine hr.bind hr.peek fun t t' ht => ?_
  rw [K.kind ht]
  generalize t.kind = kind
  split
  iterate 5 exact hr.past (hr.pure (K.literal _))
  · exact hr.past (hr.superReference ht)
  · exact hr.past (hr.bind hr.freshId fun _ _ hi => hr.pure (K.thisRef hi ht))
  · exact hr.past (hr.bind hr.freshId fun _ _ hi => hr.pure (K.var hi ht))
  · exact hr.past (hr.bind ih.expression fun _ _ he => hr.bind (hr.expect _ _) fun _ _ _ => hr.pure (K.group he))
  · exact hr.reject _

/-! ### Statements -/

theorem expressionUnless (kind : Kind) :
    R (Option.Rel K.expr) (Parse.expressionUnless n kind) (Parse.expressionUnless k kind) :=
  hr.test (hr.sees kind) fun _ => Relates.ite (hr.pure .none) (hr.bind ih.expression fun _ _ he => hr.pure (.some he))

theorem varDeclaration : R K.stmt (Parse.varDeclaration n) (Parse.varDeclaration k) := by
  refine hr.bind (hr.expect _ _) fun name name' hn => ?_
  have hrest (init init' : Option Expr) (hi : Option.Rel K.expr init init') : R K.stmt
      (do Parse.semicolon .variableEnd
          return .varDecl name init)
      (do Parse.semicolon .variableEnd
          return .varDecl name' init') :=
    hr.bind (hr.semicolon _) fun _ _ _ => hr.pure (K.varDecl hn hi)
  exact hr.accept (fun _ _ _ => hr.bind (hr.map ih.expression fun _ _ he => .some he) hrest)
    (hr.bind (hr.pure .none) hrest)

theorem expressionStatement : R K.stmt (Parse.expressionStatement n) (Parse.expressionStatement k) :=
  hr.bind ih.expression fun _ _ he => hr.bind (hr.semicolon _) fun _ _ _ => hr.pure (K.exprStmt he)

theorem next_parameters (count : Nat) :
    R (List.Forall₂ K.token) (Parse.parameters (n + 1) count) (Parse.parameters (k + 1) count) :=
  hr.counted (by nofun) (hr.bind (hr.expect _ _) fun _ _ ht => hr.accept
    (fun _ _ _ => hr.bind (ih.parameters _) fun _ _ hts => hr.pure (.cons ht hts)) (hr.pure (.cons ht .nil)))

theorem next_declaration : R (Option.Rel K.stmt) (Parse.declaration (n + 1)) (Parse.declaration (k + 1)) :=
  hr.recovering (hr.accept (fun _ _ _ => ih.classDeclaration) (hr.accept
    (fun _ _ _ => hr.bind (ih.routine _) fun _ _ hf => hr.pure (K.function hf))
    (hr.accept (fun _ _ _ => ih.varDeclaration hr) ih.statement)))

theorem next_classDeclaration : R K.stmt (Parse.classDeclaration (n + 1)) (Parse.classDeclaration (k + 1)) := by
  refine hr.bind (hr.expect _ _) fun name name' hn => ?_
  -- with a superclass or without, the body is read in the same way
  have hbody (parent parent' : Option Expr) (hp : ∀ rs rs', List.Forall₂ K.routine rs rs' →
      K.stmt (.classDecl name parent rs) (.classDecl name' parent' rs')) : R K.stmt
      (do let _ ← Parse.expect (.symbol .leftBrace) .classBody
          let methods ← Parse.methods n
          let _ ← Parse.expect (.symbol .rightBrace) .classEnd
          return .classDecl name parent methods)
      (do let _ ← Parse.expect (.symbol .leftBrace) .classBody
          let methods ← Parse.methods k
          let _ ← Parse.expect (.symbol .rightBrace) .classEnd
          return .classDecl name' parent' methods) :=
    hr.bind (hr.expect _ _) fun _ _ _ => hr.bind ih.methods fun _ _ hm =>
      hr.bind (hr.expect _ _) fun _ _ _ => hr.pure (hp _ _ hm)
  refine hr.accept (fun _ _ _ => ?_) (hr.bind (hr.pure fun _ _ hm => K.classDecl hn hm) hbody)
  exact hr.bind (hr.expect _ _) fun _ _ ht => hr.bind hr.freshId fun _ _ hi =>
    hr.bind (hr.pure fun _ _ hm => K.subclassDecl hn hi ht hm) hbody

theorem next_methods : R (List.Forall₂ K.routine) (Parse.methods (n + 1)) (Parse.methods (k + 1)) :=
  hr.test (hr.sees _) fun _ => hr.test hr.atEnd fun _ => Relates.ite (hr.pure .nil)
    (hr.bind (ih.routine _) fun _ _ hf => hr.bind ih.methods fun _ _ hfs => hr.pure (.cons hf hfs))

theorem next_routine (kind : RoutineKind) : R K.routine (Parse.routine (n + 1) kind) (Parse.routine (k + 1) kind) := by
  refine hr.bind (hr.expect _ _) fun name name' hn => hr.bind (hr.expect _ _) fun _ _ _ => ?_
  have hbody (params params' : List Token) (hps : List.Forall₂ K.token params params') : R K.routine
      (do let _ ← Parse.expect (.symbol .rightParen) .parameterListEnd
          let _ ← Parse.expect (.symbol .leftBrace) (.routineBody kind)
          return ⟨name, params, ← Parse.block n⟩)
      (do let _ ← Parse.expect (.symbol .rightParen) .parameterListEnd
          let _ ← Parse.expect (.symbol .leftBrace) (.routineBody kind)
          return ⟨name', params', ← Parse.block k⟩) :=
    hr.bind (hr.expect _ _) fun _ _ _ => hr.bind (hr.expect _ _) fun _ _ _ =>
      hr.bind ih.block fun _ _ hb => hr.pure (K.declared hn hps hb)
  exact hr.test (hr.sees _) fun _ => Relates.ite (hr.bind (hr.pure .nil) hbody) (hr.bind (ih.parameters 0) hbody)

/-- One more statement in front of the rest, or none if there was a fault. -/
theorem declarations {p : EStateM ε σ (List Stmt)} {q : EStateM ε' σ' (List Stmt)} (h : R (List.Forall₂ K.stmt) p q) :
    R (List.Forall₂ K.stmt)
      (do match ← Parse.declaration n with
          | some first => return first :: (← p)
          | none => p)
      (do match ← Parse.declaration k with
          | some first => return first :: (← q)
          | none => q) := by
  refine hr.bind ih.declaration fun o o' ho => ?_
  cases ho with
  | none => exact h
  | some hs => exact hr.bind h fun _ _ hss => hr.pure (.cons hs hss)

theorem next_block : R (List.Forall₂ K.stmt) (Parse.block (n + 1)) (Parse.block (k + 1)) :=
  hr.test (hr.sees _) fun _ => hr.test hr.atEnd fun _ =>
    Relates.ite (hr.bind (hr.expect _ _) fun _ _ _ => hr.pure .nil) (ih.declarations hr ih.block)

theorem next_statement : R K.stmt (Parse.statement (n + 1)) (Parse.statement (k + 1)) := by
  refine hr.bind hr.peek fun t t' ht => ?_
  rw [K.kind ht]
  generalize t.kind = kind
  split
  · exact hr.past ih.forStatement
  · exact hr.past ih.ifStatement
  · exact hr.past (hr.bind ih.expression fun _ _ he => hr.bind (hr.semicolon _) fun _ _ _ => hr.pure (K.print he))
  · exact hr.past (hr.bind (hr.semicolon _) fun _ _ _ => hr.pure (K.breakLoop ht))
  · exact hr.past (hr.bind ih.expression fun _ _ he => hr.bind (hr.semicolon _) fun _ _ _ => hr.pure (K.execute ht he))
  · exact hr.past (hr.bind (ih.expressionUnless hr _) fun _ _ hv => hr.bind (hr.semicolon _) fun _ _ _ =>
      hr.pure (K.returnWith ht hv))
  · exact hr.past (hr.bind (hr.expect _ _) fun _ _ _ => hr.bind ih.expression fun _ _ he =>
      hr.bind (hr.expect _ _) fun _ _ _ => hr.bind ih.statement fun _ _ hs => hr.pure (K.loop he hs))
  · exact hr.past (hr.bind ih.block fun _ _ hb => hr.pure (K.block hb))
  · exact ih.expressionStatement hr

theorem next_forStatement : R K.stmt (Parse.forStatement (n + 1)) (Parse.forStatement (k + 1)) := by
  refine hr.bind (hr.expect _ _) fun _ _ _ => ?_
  have hrest (init init' : Option Stmt) (hi : Option.Rel K.stmt init init') : R K.stmt
      (do let cond ← Parse.expressionUnless n (.symbol .semicolon)
          Parse.semicolon .loopConditionEnd
          let increment ← Parse.expressionUnless n (.symbol .rightParen)
          let _ ← Parse.expect (.symbol .rightParen) .forClausesEnd
          return Parse.forLoop init cond increment (← Parse.statement n))
      (do let cond ← Parse.expressionUnless k (.symbol .semicolon)
          Parse.semicolon .loopConditionEnd
          let increment ← Parse.expressionUnless k (.symbol .rightParen)
          let _ ← Parse.expect (.symbol .rightParen) .forClausesEnd
          return Parse.forLoop init' cond increment (← Parse.statement k)) :=
    hr.bind (ih.expressionUnless hr _) fun _ _ hc => hr.bind (hr.semicolon _) fun _ _ _ =>
      hr.bind (ih.expressionUnless hr _) fun _ _ hu => hr.bind (hr.expect _ _) fun _ _ _ =>
      hr.bind ih.statement fun _ _ hb => hr.pure (K.forLoop hi hc hu hb)
  exact hr.accept (fun _ _ _ => hr.bind (hr.pure .none) hrest) (hr.accept
    (fun _ _ _ => hr.bind (hr.map (ih.varDeclaration hr) fun _ _ hs => .some hs) hrest)
    (hr.bind (hr.map (ih.expressionStatement hr) fun _ _ hs => .some hs) hrest))

theorem next_ifStatement : R K.stmt (Parse.ifStatement (n + 1)) (Parse.ifStatement (k + 1)) :=
  hr.bind (hr.expect _ _) fun _ _ _ => hr.bind ih.expression fun _ _ hc => hr.bind (hr.expect _ _) fun _ _ _ =>
    hr.bind ih.statement fun _ _ hy => hr.accept
      (fun _ _ _ => hr.bind ih.statement fun _ _ hn => hr.pure (K.branchElse hc hy hn)) (hr.pure (K.branch hc hy))

theorem next : RulesRelate K R (n + 1) (k + 1) where
  expression := ih.next_expression hr
  operation level := hr.bind (ih.operand level) fun _ _ he => ih.operationRest level he
  operand := ih.next_operand
  operationRest := ih.next_operationRest hr
  unary := ih.next_unary hr
  suffixed := hr.bind ih.primary fun _ _ he => ih.suffixes he
  suffixes := ih.next_suffixes hr
  arguments := ih.next_arguments hr
  primary := ih.next_primary hr
  parameters := ih.next_parameters hr
  declaration := ih.next_declaration hr
  classDeclaration := ih.next_classDeclaration hr
  methods := ih.next_methods hr
  routine := ih.next_routine hr
  block := ih.next_block hr
  statement := ih.next_statement hr
  forStatement := ih.next_forStatement hr
  ifStatement := ih.next_ifStatement hr
  program := hr.test hr.atEnd fun _ => Relates.ite (hr.pure .nil) (ih.declarations hr ih.program)

end RulesRelate

/-! ## What can be read -/

/-- What a rule is to read, after the keyword or brace that selects it has been read. -/
inductive Goal where
  | token (kind : Kind) (what : Expected)
  | expression
  | operation (level : Level)
  | operand (level : Level)
  | operationRest (level : Level) (left : Expr)
  | unary
  | suffixed
  | suffixes (e : Expr)
  | arguments (count : Nat)
  | primary
  | expressionUnless (kind : Kind)
  | varDeclaration
  | expressionStatement
  | parameters (count : Nat)
  | declaration
  | classDeclaration
  | methods
  | routine (kind : RoutineKind)
  | block
  | statement
  | forStatement
  | ifStatement
  | program

namespace Goal

/-- What is read. -/
def Tree : Goal → Type
  | token _ _ => Token
  | expression | operation _ | operand _ | operationRest _ _ | unary | suffixed | suffixes _
  | primary => Expr
  | arguments _ => List Expr
  | expressionUnless _ => Option Expr
  | varDeclaration | expressionStatement | classDeclaration | statement | forStatement
  | ifStatement => Stmt
  | parameters _ => List Token
  | declaration => Option Stmt
  | methods => List Routine
  | routine _ => Routine
  | block | program => List Stmt

def read (n : Nat) : (goal : Goal) → EStateM ε σ goal.Tree
  | token kind what => expect kind what
  | expression => Parse.expression n
  | operation level => Parse.operation n level
  | operand level => Parse.operand n level
  | operationRest level left => Parse.operationRest n level left
  | unary => Parse.unary n
  | suffixed => Parse.suffixed n
  | suffixes e => Parse.suffixes n e
  | arguments count => Parse.arguments n count
  | primary => Parse.primary n
  | expressionUnless kind => Parse.expressionUnless n kind
  | varDeclaration => Parse.varDeclaration n
  | expressionStatement => Parse.expressionStatement n
  | parameters count => Parse.parameters n count
  | declaration => Parse.declaration n
  | classDeclaration => Parse.classDeclaration n
  | methods => Parse.methods n
  | routine kind => Parse.routine n kind
  | block => Parse.block n
  | statement => Parse.statement n
  | forStatement => Parse.forStatement n
  | ifStatement => Parse.ifStatement n
  | program => Parse.program n

end Goal

/-- Where the same goes together, any rule gives the same. -/
theorem RulesRelate.goal {R : {α β : Type} → (α → β → Prop) → EStateM ε σ α → EStateM ε' σ' β → Prop}
    (hr : Relates .same R) (h : RulesRelate .same R n k) (goal : Goal) : R Eq (goal.read n) (goal.read k) := by
  have hlist {α : Type} {p : EStateM ε σ (List α)} {q : EStateM ε' σ' (List α)} (h : R (List.Forall₂ Eq) p q) :
      R Eq p q := hr.mono h fun _ _ => Kinship.eq_of_forall₂
  have hoption {α : Type} {p : EStateM ε σ (Option α)} {q : EStateM ε' σ' (Option α)} (h : R (Option.Rel Eq) p q) :
      R Eq p q := hr.mono h fun _ _ => Kinship.eq_of_rel
  cases goal with
  | token kind what => exact hr.expect kind what
  | expression => exact h.expression
  | operation level => exact h.operation level
  | operand level => exact h.operand level
  | operationRest level left => exact h.operationRest level rfl
  | unary => exact h.unary
  | suffixed => exact h.suffixed
  | suffixes e => exact h.suffixes rfl
  | arguments count => exact hlist (h.arguments count)
  | primary => exact h.primary
  | expressionUnless kind => exact hoption (h.expressionUnless hr kind)
  | varDeclaration => exact h.varDeclaration hr
  | expressionStatement => exact h.expressionStatement hr
  | parameters count => exact hlist (h.parameters count)
  | declaration => exact hoption h.declaration
  | classDeclaration => exact h.classDeclaration
  | methods => exact hlist h.methods
  | routine kind => exact h.routine kind
  | block => exact hlist h.block
  | statement => exact h.statement
  | forStatement => exact h.forStatement
  | ifStatement => exact h.ifStatement
  | program => exact hlist h.program

/-- If the first reading may be cut off at any time, its depth need only be the smaller one. -/
theorem Relates.rules (hr : Relates K R)
    (hx : ∀ {α β : Type} (A : α → β → Prop) (q : EStateM ε' σ' β), R A exhausted q) {n k : Nat} (h : n ≤ k) :
    RulesRelate K R n k := by
  induction n generalizing k with
  | zero => constructor <;> intros <;> exact hx _ _
  | succ n ih =>
    obtain ⟨k, rfl⟩ : ∃ m, k = m + 1 := ⟨k - 1, by omega⟩
    exact (ih (Nat.le_of_succ_le_succ h)).next hr

/-- Two readings to the same depth. -/
theorem Relates.rules_same (hr : Relates K R)
    (hx : ∀ {α β : Type} (A : α → β → Prop), R A exhausted exhausted) (n : Nat) : RulesRelate K R n n := by
  induction n with
  | zero => constructor <;> intros <;> exact hx _
  | succ n ih => exact ih.next hr

end Parse
end Lox
