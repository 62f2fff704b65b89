import Mathlib
import Lox.Proofs.Nodes
import Lox.Table

/-!
# Programs that differ in identities and lines

Reading the same words twice gives two trees of the same form. They differ in the identities that
were handed out, and in the lines of their tokens if the words stood elsewhere. A `Matching` says
which identities and which lines may stand for each other; two trees are matched when they are the
same up to that.
-/

namespace Lox

/-- Which identities and which lines of one program go with which of another. -/
structure Matching where
  node : Nat → Nat → Prop
  line : Nat → Nat → Prop

/-- Any identity may stand for any other. -/
def Matching.anyNode (line : Nat → Nat → Prop) : Matching := ⟨fun _ _ => True, line⟩

structure Token.Matched (ρ : Matching) (t t' : Token) : Prop where
  kind : t'.kind = t.kind
  lexeme : t'.lexeme = t.lexeme
  line : ρ.line t.line t'.line

mutual

inductive Expr.Matched (ρ : Matching) : Expr → Expr → Prop
  | literal (v : Literal) : Expr.Matched ρ (.literal v) (.literal v)
  | group {e e' : Expr} : Expr.Matched ρ e e' → Expr.Matched ρ (.group e) (.group e')
  | unary {op op' : Token} {e e' : Expr} : op.Matched ρ op' → Expr.Matched ρ e e' →
      Expr.Matched ρ (.unary op e) (.unary op' e')
  | binary {op op' : Token} {l l' r r' : Expr} : Expr.Matched ρ l l' → op.Matched ρ op' →
      Expr.Matched ρ r r' → Expr.Matched ρ (.binary l op r) (.binary l' op' r')
  | logical {op op' : Token} {l l' r r' : Expr} : Expr.Matched ρ l l' → op.Matched ρ op' →
      Expr.Matched ρ r r' → Expr.Matched ρ (.logical l op r) (.logical l' op' r')
  | var {i j : Nat} {name name' : Token} : ρ.node i j → name.Matched ρ name' →
      Expr.Matched ρ (.var i name) (.var j name')
  | assign {i j : Nat} {name name' : Token} {e e' : Expr} : ρ.node i j → name.Matched ρ name' →
      Expr.Matched ρ e e' → Expr.Matched ρ (.assign i name e) (.assign j name' e')
  | call {callee callee' : Expr} {paren paren' : Token} {args args' : List Expr} :
      Expr.Matched ρ callee callee' → paren.Matched ρ paren' → Expr.MatchedAll ρ args args' →
      Expr.Matched ρ (.call callee paren args) (.call callee' paren' args')
  | get {object object' : Expr} {name name' : Token} : Expr.Matched ρ object object' →
      name.Matched ρ name' → Expr.Matched ρ (.get object name) (.get object' name')
  | set {object object' e e' : Expr} {name name' : Token} : Expr.Matched ρ object object' →
      name.Matched ρ name' → Expr.Matched ρ e e' →
      Expr.Matched ρ (.set object name e) (.set object' name' e')
  | thisRef {i j : Nat} {keyword keyword' : Token} : ρ.node i j → keyword.Matched ρ keyword' →
      Expr.Matched ρ (.thisRef i keyword) (.thisRef j keyword')
  | superRef {i j : Nat} {keyword keyword' method method' : Token} : ρ.node i j →
      keyword.Matched ρ keyword' → method.Matched ρ method' →
      Expr.Matched ρ (.superRef i keyword method) (.superRef j keyword' method')

inductive Expr.MatchedAll (ρ : Matching) : List Expr → List Expr → Prop
  | nil : Expr.MatchedAll ρ [] []
  | cons {e e' : Expr} {rest rest' : List Expr} : Expr.Matched ρ e e' →
      Expr.MatchedAll ρ rest rest' → Expr.MatchedAll ρ (e :: rest) (e' :: rest')

end

mutual

inductive Stmt.Matched (ρ : Matching) : Stmt → Stmt → Prop
  | expr {e e' : Expr} : e.Matched ρ e' → Stmt.Matched ρ (.expr e) (.expr e')
  | print {e e' : Expr} : e.Matched ρ e' → Stmt.Matched ρ (.print e) (.print e')
  | varDecl {name name' : Token} {init init' : Option Expr} : name.Matched ρ name' →
      Option.Rel (Expr.Matched ρ) init init' →
      Stmt.Matched ρ (.varDecl name init) (.varDecl name' init')
  | block {body body' : List Stmt} : Stmt.MatchedAll ρ body body' →
      Stmt.Matched ρ (.block body) (.block body')
  | branch {cond cond' : Expr} {yes yes' : Stmt} : cond.Matched ρ cond' → Stmt.Matched ρ yes yes' →
      Stmt.Matched ρ (.branch cond yes none) (.branch cond' yes' none)
  | branchElse {cond cond' : Expr} {yes yes' no no' : Stmt} : cond.Matched ρ cond' →
      Stmt.Matched ρ yes yes' → Stmt.Matched ρ no no' →
      Stmt.Matched ρ (.branch cond yes (some no)) (.branch cond' yes' (some no'))
  | loop {cond cond' : Expr} {body body' : Stmt} : cond.Matched ρ cond' →
      Stmt.Matched ρ body body' → Stmt.Matched ρ (.loop cond body) (.loop cond' body')
  | breakLoop {keyword keyword' : Token} : keyword.Matched ρ keyword' →
      Stmt.Matched ρ (.breakLoop keyword) (.breakLoop keyword')
  | function {decl decl' : Routine} : Routine.Matched ρ decl decl' →
      Stmt.Matched ρ (.function decl) (.function decl')
  | returnWith {keyword keyword' : Token} {value value' : Option Expr} :
      keyword.Matched ρ keyword' → Option.Rel (Expr.Matched ρ) value value' →
      Stmt.Matched ρ (.returnWith keyword value) (.returnWith keyword' value')
  | classDecl {name name' : Token} {methods methods' : List Routine} : name.Matched ρ name' →
      Routine.MatchedAll ρ methods methods' →
      Stmt.Matched ρ (.classDecl name none methods) (.classDecl name' none methods')
  /-- A superclass is a name in both. -/
  | subclassDecl {name name' superName superName' : Token} {i j : Nat}
      {methods methods' : List Routine} : name.Matched ρ name' → ρ.node i j →
      superName.Matched ρ superName' → Routine.MatchedAll ρ methods methods' →
      Stmt.Matched ρ (.classDecl name (some (.var i superName)) methods)
        (.classDecl name' (some (.var j superName')) methods')
  | execute {keyword keyword' : Token} {path path' : Expr} : keyword.Matched ρ keyword' →
      path.Matched ρ path' → Stmt.Matched ρ (.execute keyword path) (.execute keyword' path')

inductive Stmt.MatchedAll (ρ : Matching) : List Stmt → List Stmt → Prop
  | nil : Stmt.MatchedAll ρ [] []
  | cons {s s' : Stmt} {rest rest' : List Stmt} : Stmt.Matched ρ s s' →
      Stmt.MatchedAll ρ rest rest' → Stmt.MatchedAll ρ (s :: rest) (s' :: rest')

inductive Routine.Matched (ρ : Matching) : Routine → Routine → Prop
  | mk {name name' : Token} {params params' : List Token} {body body' : List Stmt} :
      name.Matched ρ name' → List.Forall₂ (Token.Matched ρ) params params' →
      Stmt.MatchedAll ρ body body' → Routine.Matched ρ ⟨name, params, body⟩ ⟨name', params', body'⟩

inductive Routine.MatchedAll (ρ : Matching) : List Routine → List Routine → Prop
  | nil : Routine.MatchedAll ρ [] []
  | cons {r r' : Routine} {rest rest' : List Routine} : Routine.Matched ρ r r' →
      Routine.MatchedAll ρ rest rest' → Routine.MatchedAll ρ (r :: rest) (r' :: rest')

end

theorem Expr.MatchedAll.of_forall₂ {ρ : Matching} {ts ts' : List Expr}
    (h : List.Forall₂ (Expr.Matched ρ) ts ts') : Expr.MatchedAll ρ ts ts' := by
  induction h with
  | nil => exact .nil
  | cons h _ ih => exact .cons h ih

theorem Stmt.MatchedAll.of_forall₂ {ρ : Matching} {ts ts' : List Stmt}
    (h : List.Forall₂ (Stmt.Matched ρ) ts ts') : Stmt.MatchedAll ρ ts ts' := by
  induction h with
  | nil => exact .nil
  | cons h _ ih => exact .cons h ih

theorem Routine.MatchedAll.of_forall₂ {ρ : Matching} {ts ts' : List Routine}
    (h : List.Forall₂ (Routine.Matched ρ) ts ts') : Routine.MatchedAll ρ ts ts' := by
  induction h with
  | nil => exact .nil
  | cons h _ ih => exact .cons h ih

theorem Token.matched_self {ρ : Matching} (hl : ∀ k, ρ.line k k) (t : Token) : t.Matched ρ t :=
  ⟨rfl, rfl, hl t.line⟩

theorem Token.matchedAll_self {ρ : Matching} (hl : ∀ k, ρ.line k k) (ts : List Token) :
    List.Forall₂ (Token.Matched ρ) ts ts :=
  List.forall₂_same.2 fun t _ => t.matched_self hl

/-! ## Matched trees have matched identities -/

section

variable {ρ : Matching}

mutual

theorem Expr.Matched.nodes {e e' : Expr} (h : e.Matched ρ e') :
    List.Forall₂ ρ.node e.nodes e'.nodes := by
  cases h with
  | literal v => exact .nil
  | group h => exact h.nodes
  | unary _ h => exact h.nodes
  | binary hl _ hr => exact List.rel_append hl.nodes hr.nodes
  | logical hl _ hr => exact List.rel_append hl.nodes hr.nodes
  | var hi _ => exact .cons hi .nil
  | assign hi _ h => exact List.rel_append h.nodes (.cons hi .nil)
  | call hc _ ha => exact List.rel_append hc.nodes ha.nodes
  | get h _ => exact h.nodes
  | set ho _ h => exact List.rel_append ho.nodes h.nodes
  | thisRef hi _ => exact .cons hi .nil
  | superRef hi _ _ => exact .cons hi .nil

theorem Expr.MatchedAll.nodes {es es' : List Expr} (h : Expr.MatchedAll ρ es es') :
    List.Forall₂ ρ.node (Expr.nodesAll es) (Expr.nodesAll es') := by
  cases h with
  | nil => exact .nil
  | cons h hr => exact List.rel_append h.nodes hr.nodes

end

theorem Expr.Matched.nodes_option {e e' : Option Expr} (h : Option.Rel (Expr.Matched ρ) e e') :
    List.Forall₂ ρ.node (Expr.nodesOption e) (Expr.nodesOption e') := by
  cases h with
  | none => exact .nil
  | some h => exact h.nodes

mutual

theorem Stmt.Matched.nodes {s s' : Stmt} (h : s.Matched ρ s') :
    List.Forall₂ ρ.node s.nodes s'.nodes := by
  cases h with
  | expr h => exact h.nodes
  | print h => exact h.nodes
  | varDecl _ hi => exact Expr.Matched.nodes_option hi
  | block h => exact h.nodes
  | branch hc hy => exact List.rel_append hc.nodes hy.nodes
  | branchElse hc hy hn => exact List.rel_append hc.nodes (List.rel_append hy.nodes hn.nodes)
  | loop hc hb => exact List.rel_append hc.nodes hb.nodes
  | breakLoop _ => exact .nil
  | function h => exact h.nodes
  | returnWith _ hv => exact Expr.Matched.nodes_option hv
  | classDecl _ hm => exact hm.nodes
  | subclassDecl _ hi _ hm => exact .cons hi hm.nodes
  | execute _ h => exact h.nodes

theorem Stmt.MatchedAll.nodes {ss ss' : List Stmt} (h : Stmt.MatchedAll ρ ss ss') :
    List.Forall₂ ρ.node (Stmt.nodesAll ss) (Stmt.nodesAll ss') := by
  cases h with
  | nil => exact .nil
  | cons h hr => exact List.rel_append h.nodes hr.nodes

theorem Routine.Matched.nodes {r r' : Routine} (h : r.Matched ρ r') :
    List.Forall₂ ρ.node r.nodes r'.nodes := by
  cases h with
  | mk _ _ h => exact h.nodes

theorem Routine.MatchedAll.nodes {rs rs' : List Routine} (h : Routine.MatchedAll ρ rs rs') :
    List.Forall₂ ρ.node (Routine.nodesAll rs) (Routine.nodesAll rs') := by
  cases h with
  | nil => exact .nil
  | cons h hr => exact List.rel_append h.nodes hr.nodes

end

end

/-! ## Other matchings -/

section

variable {ρ σ : Matching}

/-- What goes together elementwise does so in both parts, if the first parts are of one length. -/
theorem forall₂_of_append {α β : Type} {R : α → β → Prop} {xs ys : List α} {xs' ys' : List β}
    (h : List.Forall₂ R (xs ++ ys) (xs' ++ ys')) (hl : xs.length = xs'.length) :
    List.Forall₂ R xs xs' ∧ List.Forall₂ R ys ys' := by
  have ht := List.forall₂_take xs.length h
  have hd := List.forall₂_drop xs.length h
  rw [List.take_left, hl, List.take_left] at ht
  rw [List.drop_left, hl, List.drop_left] at hd
  exact ⟨ht, hd⟩

theorem Token.Matched.retarget (hl : ∀ k l, ρ.line k l → σ.line k l) {t t' : Token}
    (h : t.Matched ρ t') : t.Matched σ t' :=
  ⟨h.kind, h.lexeme, hl _ _ h.line⟩

mutual

/-- Of a matching, only the lines and the identities that occur in a tree count for it. -/
theorem Expr.Matched.retarget (hl : ∀ k l, ρ.line k l → σ.line k l) {e e' : Expr}
    (h : e.Matched ρ e')
    (hn : List.Forall₂ σ.node e.nodes e'.nodes) : e.Matched σ e' := by
  cases h with
  | literal v => exact .literal v
  | group h => exact .group (h.retarget hl hn)
  | unary hop h => exact .unary (hop.retarget hl) (h.retarget hl hn)
  | binary hleft hop hright =>
    obtain ⟨hn₁, hn₂⟩ := forall₂_of_append hn hleft.nodes.length_eq
    exact .binary (hleft.retarget hl hn₁) (hop.retarget hl) (hright.retarget hl hn₂)
  | logical hleft hop hright =>
    obtain ⟨hn₁, hn₂⟩ := forall₂_of_append hn hleft.nodes.length_eq
    exact .logical (hleft.retarget hl hn₁) (hop.retarget hl) (hright.retarget hl hn₂)
  | var _ hname => exact .var (List.forall₂_cons.1 hn).1 (hname.retarget hl)
  | assign _ hname h =>
    obtain ⟨hn₁, hn₂⟩ := forall₂_of_append hn h.nodes.length_eq
    exact .assign (List.forall₂_cons.1 hn₂).1 (hname.retarget hl) (h.retarget hl hn₁)
  | call hcallee hparen hargs =>
    obtain ⟨hn₁, hn₂⟩ := forall₂_of_append hn hcallee.nodes.length_eq
    exact .call (hcallee.retarget hl hn₁) (hparen.retarget hl) (hargs.retarget hl hn₂)
  | get h hname => exact .get (h.retarget hl hn) (hname.retarget hl)
  | set hobject hname h =>
    obtain ⟨hn₁, hn₂⟩ := forall₂_of_append hn hobject.nodes.length_eq
    exact .set (hobject.retarget hl hn₁) (hname.retarget hl) (h.retarget hl hn₂)
  | thisRef _ hkeyword => exact .thisRef (List.forall₂_cons.1 hn).1 (hkeyword.retarget hl)
  | superRef _ hkeyword hmethod =>
    exact .superRef (List.forall₂_cons.1 hn).1 (hkeyword.retarget hl) (hmethod.retarget hl)

theorem Expr.MatchedAll.retarget (hl : ∀ k l, ρ.line k l → σ.line k l) {es es' : List Expr}
    (h : Expr.MatchedAll ρ es es')
    (hn : List.Forall₂ σ.node (Expr.nodesAll es) (Expr.nodesAll es')) : Expr.MatchedAll σ es es' := by
  cases h with
  | nil => exact .nil
  | cons h hr =>
    obtain ⟨hn₁, hn₂⟩ := forall₂_of_append hn h.nodes.length_eq
    exact .cons (h.retarget hl hn₁) (hr.retarget hl hn₂)

end

theorem Expr.Matched.retarget_option (hl : ∀ k l, ρ.line k l → σ.line k l) {e e' : Option Expr}
    (h : Option.Rel (Expr.Matched ρ) e e')
    (hn : List.Forall₂ σ.node (Expr.nodesOption e) (Expr.nodesOption e')) :
    Option.Rel (Expr.Matched σ) e e' := by
  cases h with
  | none => exact .none
  | some h => exact .some (h.retarget hl hn)

mutual

theorem Stmt.Matched.retarget (hl : ∀ k l, ρ.line k l → σ.line k l) {s s' : Stmt} :
    s.Matched ρ s' → List.Forall₂ σ.node s.nodes s'.nodes → s.Matched σ s'
  | .expr h, hn => .expr (h.retarget hl hn)
  | .print h, hn => .print (h.retarget hl hn)
  | .varDecl hname hi, hn => .varDecl (hname.retarget hl) (Expr.Matched.retarget_option hl hi hn)
  | .block h, hn => .block (h.retarget hl hn)
  | .branch hcond hyes, hn => by
    obtain ⟨hn₁, hn₂⟩ := forall₂_of_append hn hcond.nodes.length_eq
    exact .branch (hcond.retarget hl hn₁) (hyes.retarget hl hn₂)
  | .branchElse hcond hyes hno, hn => by
    obtain ⟨hn₁, hn⟩ := forall₂_of_append hn hcond.nodes.length_eq
    obtain ⟨hn₂, hn₃⟩ := forall₂_of_append hn hyes.nodes.length_eq
    exact .branchElse (hcond.retarget hl hn₁) (hyes.retarget hl hn₂) (hno.retarget hl hn₃)
  | .loop hcond hbody, hn => by
    obtain ⟨hn₁, hn₂⟩ := forall₂_of_append hn hcond.nodes.length_eq
    exact .loop (hcond.retarget hl hn₁) (hbody.retarget hl hn₂)
  | .breakLoop hkeyword, _ => .breakLoop (hkeyword.retarget hl)
  | .function h, hn => .function (h.retarget hl hn)
  | .returnWith hkeyword hv, hn =>
    .returnWith (hkeyword.retarget hl) (Expr.Matched.retarget_option hl hv hn)
  | .classDecl hname hm, hn => .classDecl (hname.retarget hl) (hm.retarget hl hn)
  | .subclassDecl hname _ hs hm, hn => by
    obtain ⟨hi, hn⟩ := List.forall₂_cons.1 hn
    exact .subclassDecl (hname.retarget hl) hi (hs.retarget hl) (hm.retarget hl hn)
  | .execute hkeyword h, hn => .execute (hkeyword.retarget hl) (h.retarget hl hn)

theorem Stmt.MatchedAll.retarget (hl : ∀ k l, ρ.line k l → σ.line k l) {ss ss' : List Stmt} :
    Stmt.MatchedAll ρ ss ss' → List.Forall₂ σ.node (Stmt.nodesAll ss) (Stmt.nodesAll ss') →
      Stmt.MatchedAll σ ss ss'
  | .nil, _ => .nil
  | .cons h hr, hn => by
    obtain ⟨hn₁, hn₂⟩ := forall₂_of_append hn h.nodes.length_eq
    exact .cons (h.retarget hl hn₁) (hr.retarget hl hn₂)

theorem Routine.Matched.retarget (hl : ∀ k l, ρ.line k l → σ.line k l) {r r' : Routine} :
    r.Matched ρ r' → List.Forall₂ σ.node r.nodes r'.nodes → r.Matched σ r'
  | .mk hname hparams h, hn =>
    .mk (hname.retarget hl) (hparams.imp fun _ _ ht => ht.retarget hl) (h.retarget hl hn)

theorem Routine.MatchedAll.retarget (hl : ∀ k l, ρ.line k l → σ.line k l) {rs rs' : List Routine} :
    Routine.MatchedAll ρ rs rs' → List.Forall₂ σ.node (Routine.nodesAll rs) (Routine.nodesAll rs') →
      Routine.MatchedAll σ rs rs'
  | .nil, _ => .nil
  | .cons h hr, hn => by
    obtain ⟨hn₁, hn₂⟩ := forall₂_of_append hn h.nodes.length_eq
    exact .cons (h.retarget hl hn₁) (hr.retarget hl hn₂)

end

end

end Lox
