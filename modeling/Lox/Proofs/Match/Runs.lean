import Lox.Proofs.Match.Steps

/-!
# Matched programs run alike

By induction on the depth: matched programs, run on matched machines in a host that does not see identities and
lines, write the same, end in the same way and leave matched machines.
-/

namespace Lox
open Eval

inductive Flow.Matched (ρ : Matching) : Flow → Flow → Prop
  | normal : Flow.Matched ρ .normal .normal
  | broke : Flow.Matched ρ .broke .broke
  | returned {v v' : Value} : v.Matched ρ v' → Flow.Matched ρ (.returned v) (.returned v')

theorem Flow.Matched.result {ρ : Matching} {flow flow' : Flow} (h : flow.Matched ρ flow') :
    flow.result.Matched ρ flow'.result := by
  cases h with
  | normal => exact .nil
  | broke => exact .nil
  | returned hv => exact hv

/-- The frames of two calls bind the same names to matched arguments. -/
theorem Closure.Matched.frame {ρ : Matching} {f f' : Closure} (h : f.Matched ρ f')
    {args args' : List Value} (hargs : List.Forall₂ (Value.Matched ρ) args args') :
    (f.frame args).Agree (Value.Matched ρ) (f'.frame args') := by
  have hfold : ∀ {ps ps' : List Token} {args args' : List Value} {t t' : Frame},
      List.Forall₂ (Token.Matched ρ) ps ps' → List.Forall₂ (Value.Matched ρ) args args' →
      t.Agree (Value.Matched ρ) t' →
      ((ps.zip args).foldl (fun frame entry => frame.insert entry.1.lexeme entry.2) t).Agree
        (Value.Matched ρ)
        ((ps'.zip args').foldl (fun frame entry => frame.insert entry.1.lexeme entry.2) t') := by
    intro ps ps' args args' t t' hps
    induction hps generalizing args args' t t' with
    | nil => exact fun _ ht => ht
    | cons hp _ ih =>
      intro hargs ht
      cases hargs with
      | nil => exact ht
      | cons hv hargs =>
        refine ih hargs ?_
        dsimp only
        rw [hp.lexeme]
        exact ht.insert _ hv
  exact hfold h.decl.params hargs fun _ => .none

/-- All runs of depth `n`. -/
structure RunsAlike (host : Host) (π : Pairing) (n : Nat) : Prop where
  evaluate {e e' : Expr} : e.Matched π.matching e' →
    Alike π (Value.Matched π.matching) (evaluate host n e) (evaluate host n e')
  evaluateAll {es es' : List Expr} : Expr.MatchedAll π.matching es es' →
    Alike π (List.Forall₂ (Value.Matched π.matching)) (evaluateAll host n es) (evaluateAll host n es')
  call {t t' : Token} {f f' : Value} {args args' : List Value} : t.Matched π.matching t' →
    f.Matched π.matching f' → List.Forall₂ (Value.Matched π.matching) args args' →
    Alike π (Value.Matched π.matching) (call host n t f args) (call host n t' f' args')
  callClosure {t t' : Token} {f f' : Closure} {args args' : List Value} : t.Matched π.matching t' →
    f.Matched π.matching f' → List.Forall₂ (Value.Matched π.matching) args args' →
    Alike π (Value.Matched π.matching) (callClosure host n t f args) (callClosure host n t' f' args')
  execute {s s' : Stmt} : s.Matched π.matching s' →
    Alike π (Flow.Matched π.matching) (execute host n s) (execute host n s')
  executeAll {ss ss' : List Stmt} : Stmt.MatchedAll π.matching ss ss' →
    Alike π (Flow.Matched π.matching) (executeAll host n ss) (executeAll host n ss')
  repeatWhile {cond cond' : Expr} {body body' : Stmt} : cond.Matched π.matching cond' →
    body.Matched π.matching body' →
    Alike π (Flow.Matched π.matching) (repeatWhile host n cond body) (repeatWhile host n cond' body')
  load {t t' : Token} (path : String) : t.Matched π.matching t' →
    Alike π Eq (load host n t path) (load host n t' path)
  interpret {p p' : List Stmt} : Stmt.MatchedAll π.matching p p' →
    Alike π Eq (interpret host n p) (interpret host n p')

namespace RunsAlike

variable {host : Host} {π : Pairing} {n : Nat} (ih : RunsAlike host π n)
include ih

theorem next_evaluate {e e' : Expr} (he : e.Matched π.matching e') :
    Alike π (Value.Matched π.matching) (Lox.evaluate host (n + 1) e) (Lox.evaluate host (n + 1) e') := by
  cases he with
  | literal v => exact .pure (Value.matched_ofLiteral v)
  | group he => exact ih.evaluate he
  | unary hop he => exact .bind (ih.evaluate he) fun _ _ hv => .unaryOp hop hv
  | binary hl hop hr =>
    exact .bind (ih.evaluate hl) fun _ _ hv => .bind (ih.evaluate hr) fun _ _ hw => .binaryOp hop hv hw
  | logical hl hop hr =>
    refine .bind (ih.evaluate hl) fun v v' hv => ?_
    rw [Alike.settles hop hv]
    exact .ite (.pure hv) (ih.evaluate hr)
  | var hi hn => exact .lookUp hi hn
  | assign hi hn he =>
    exact .bind (ih.evaluate he) fun _ _ hv => .bind (.assign hi hn hv) fun _ _ _ => .pure hv
  | call hc hp ha =>
    refine .bind (ih.evaluate hc) fun f f' hf => .bind (ih.evaluateAll ha) fun args args' hargs => ?_
    rw [hf.callable?, ← hargs.length_eq]
    cases f.callable? with
    | none => exact .fail hp _
    | some c => exact .ite (ih.call hp hf hargs) (.fail hp _)
  | get ho hn =>
    refine .bind (ih.evaluate ho) fun v v' hv => ?_
    cases hv with
    | object id hc => exact .getProperty id hc hn
    | _ => exact .fail hn _
  | set ho hn he =>
    refine .bind (ih.evaluate ho) fun v v' hv => ?_
    cases hv with
    | object id hc =>
      exact .bind (ih.evaluate he) fun _ _ hw => .bind (.setField id hn hw) fun _ _ _ => .pure hw
    | _ => exact .fail hn _
  | thisRef hi hk => exact .lookUp hi hk
  | superRef hi hk hm => exact .superMethod hi hk hm

theorem next_evaluateAll {es es' : List Expr} (hes : Expr.MatchedAll π.matching es es') :
    Alike π (List.Forall₂ (Value.Matched π.matching)) (Lox.evaluateAll host (n + 1) es)
      (Lox.evaluateAll host (n + 1) es') := by
  cases hes with
  | nil => exact .pure .nil
  | cons he hrest =>
    exact .bind (ih.evaluate he) fun _ _ hv => .bind (ih.evaluateAll hrest) fun _ _ hvs =>
      .pure (.cons hv hvs)

theorem next_call (hb : host.Blind) {t t' : Token} (ht : t.Matched π.matching t') {f f' : Value}
    (hf : f.Matched π.matching f') {args args' : List Value}
    (hargs : List.Forall₂ (Value.Matched π.matching) args args') :
    Alike π (Value.Matched π.matching) (Lox.call host (n + 1) t f args)
      (Lox.call host (n + 1) t' f' args') := by
  cases hf with
  | native f => exact .callNative hb ht f hargs
  | function _ hf => exact ih.callClosure ht hf hargs
  | @classDef c c' hc =>
    refine .bind (.newObject hc) fun receiver receiver' hr => ?_
    have hi := hc.methods initName
    unfold Class.initializer?
    generalize c.findMethod initName = o at hi ⊢
    generalize c'.findMethod initName = o' at hi ⊢
    cases hi with
    | none => exact .pure hr
    | some hf =>
      exact .bind (.attach hr hf) fun _ _ hg => .bind (ih.callClosure ht hg hargs) fun _ _ _ => .pure hr
  | _ => exact .fail ht _

theorem next_callClosure {t t' : Token} (ht : t.Matched π.matching t') {f f' : Closure}
    (hf : f.Matched π.matching f') {args args' : List Value}
    (hargs : List.Forall₂ (Value.Matched π.matching) args args') :
    Alike π (Value.Matched π.matching) (Lox.callClosure host (n + 1) t f args)
      (Lox.callClosure host (n + 1) t' f' args') := by
  rw [Lox.callClosure, Lox.callClosure, hf.env, hf.isInitializer]
  refine .bind (.extend f.env (hf.frame hargs)) fun env env' he => ?_
  subst he
  refine .bind (.inEnv env (ih.executeAll hf.decl.body)) fun flow flow' hflow => ?_
  refine .ite (.bind .get fun m m' hm => ?_) (.pure hflow.result)
  have hthis := hm.getAt? f.env 0 "this"
  generalize m.frames.getAt? f.env 0 "this" = o at hthis ⊢
  generalize m'.frames.getAt? f.env 0 "this" = o' at hthis ⊢
  cases hthis with
  | some hv => exact .pure hv
  | none => exact .fail ht _

theorem next_execute {s s' : Stmt} (hs : s.Matched π.matching s') :
    Alike π (Flow.Matched π.matching) (Lox.execute host (n + 1) s) (Lox.execute host (n + 1) s') := by
  cases hs with
  | expr he => exact .bind (ih.evaluate he) fun _ _ _ => .pure .normal
  | print he =>
    refine .bind (ih.evaluate he) fun v v' hv => ?_
    rw [hv.text]
    exact .bind (.writeLine _) fun _ _ _ => .pure .normal
  | @varDecl name name' init init' hn hi =>
    have hdef : ∀ v v', Value.Matched π.matching v v' → Alike π (Flow.Matched π.matching)
        (do Eval.define name.lexeme v; return .normal)
        (do Eval.define name'.lexeme v'; return .normal) := by
      intro v v' hv
      rw [hn.lexeme]
      exact .bind (.define _ hv) fun _ _ _ => .pure .normal
    cases hi with
    | none => exact .bind (.pure .nil) hdef
    | some he => exact .bind (ih.evaluate he) hdef
  | block hb =>
    refine .bind .get fun m m' hm => ?_
    rw [hm.env]
    refine .bind (.extend m.env fun _ => .none) fun env env' he => ?_
    subst he
    exact .inEnv env (ih.executeAll hb)
  | branch hc hy =>
    refine .bind (ih.evaluate hc) fun v v' hv => ?_
    rw [hv.truthy]
    exact .ite (ih.execute hy) (.pure .normal)
  | branchElse hc hy hn =>
    refine .bind (ih.evaluate hc) fun v v' hv => ?_
    rw [hv.truthy]
    exact .ite (ih.execute hy) (ih.execute hn)
  | loop hc hb => exact ih.repeatWhile hc hb
  | breakLoop _ => exact .pure .broke
  | function hd =>
    refine .bind .get fun m m' hm => .bind (.newFunction ⟨hd, hm.env, rfl⟩) fun f f' hf => ?_
    rw [hd.name.lexeme]
    exact .bind (.define _ hf) fun _ _ _ => .pure .normal
  | returnWith _ hv =>
    cases hv with
    | none => exact .pure (.returned .nil)
    | some he => exact .bind (ih.evaluate he) fun _ _ hv => .pure (.returned hv)
  | classDecl hn hm =>
    rw [Lox.execute, Lox.execute, hn.lexeme]
    exact .bind (.define _ .nil) fun _ _ _ => .bind (.pure .none) fun _ _ hp =>
      .bind (.defineClass hn hp hm) fun _ _ _ => .pure .normal
  | subclassDecl hn hi hsup hm =>
    rw [Lox.execute, Lox.execute, hn.lexeme]
    refine .bind (.define _ .nil) fun _ _ _ => .bind (ih.evaluate (.var hi hsup)) fun v v' hv => ?_
    have hdef : ∀ parent parent', Option.Rel (Class.Matched π.matching) parent parent' → Alike π
        (Flow.Matched π.matching) (do Eval.defineClass _ parent _; return .normal)
        (do Eval.defineClass _ parent' _; return .normal) :=
      fun _ _ hp => .bind (.defineClass hn hp hm) fun _ _ _ => .pure .normal
    cases hv with
    | classDef hc => exact .bind (.pure (.some hc)) hdef
    | _ => exact .bind (.fail hsup _) hdef
  | execute hk hp =>
    refine .bind (ih.evaluate hp) fun v v' hv => ?_
    cases hv with
    | string path => exact .bind (ih.load path hk) fun _ _ _ => .pure .normal
    | _ => exact .fail hk _

theorem next_executeAll {ss ss' : List Stmt} (hss : Stmt.MatchedAll π.matching ss ss') :
    Alike π (Flow.Matched π.matching) (Lox.executeAll host (n + 1) ss)
      (Lox.executeAll host (n + 1) ss') := by
  cases hss with
  | nil => exact .pure .normal
  | cons hs hrest =>
    refine .bind (ih.execute hs) fun flow flow' hflow => ?_
    cases hflow with
    | normal => exact ih.executeAll hrest
    | broke => exact .pure .broke
    | returned hv => exact .pure (.returned hv)

theorem next_repeatWhile {cond cond' : Expr} (hc : cond.Matched π.matching cond') {body body' : Stmt}
    (hb : body.Matched π.matching body') :
    Alike π (Flow.Matched π.matching) (Lox.repeatWhile host (n + 1) cond body)
      (Lox.repeatWhile host (n + 1) cond' body') := by
  refine .bind (ih.evaluate hc) fun v v' hv => ?_
  rw [hv.truthy]
  refine .ite (.bind (ih.execute hb) fun flow flow' hflow => ?_) (.pure .normal)
  cases hflow with
  | normal => exact ih.repeatWhile hc hb
  | broke => exact .pure .normal
  | returned hv => exact .pure (.returned hv)

theorem next_load (hb : host.Blind) {t t' : Token} (path : String) (ht : t.Matched π.matching t') :
    Alike π Eq (Lox.load host (n + 1) t path) (Lox.load host (n + 1) t' path) := by
  rw [Lox.load, Lox.load]
  cases hl : host.loader with
  | absent => exact .fail ht _
  | custom load => exact .custom hb hl path
  | files => exact .bind (.request path) fun _ _ _ => .bind (.readScript path) fun _ _ hp => ih.interpret hp

end RunsAlike

theorem runsAlike {host : Host} (hb : host.Blind) (π : Pairing) (n : Nat) : RunsAlike host π n := by
  induction n with
  | zero => constructor <;> intros <;> exact .exhausted
  | succ n ih =>
    exact
      { evaluate := ih.next_evaluate
        evaluateAll := ih.next_evaluateAll
        call := fun ht hf hargs => ih.next_call hb ht hf hargs
        callClosure := fun ht hf hargs => ih.next_callClosure ht hf hargs
        execute := ih.next_execute
        executeAll := ih.next_executeAll
        repeatWhile := fun hc hbody => ih.next_repeatWhile hc hbody
        load := ih.next_load hb
        interpret := fun hp => .flushing (.inEnv _ (.discard (ih.executeAll hp))) }

end Lox
