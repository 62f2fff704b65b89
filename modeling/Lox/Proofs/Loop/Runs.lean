import Lox.Proofs.Loop.Steps

/-!
# Twins run alike

By induction on the depth: twin programs, run on twin machines in a host that does not see the frames, write the
same, end in the same way and leave twin machines.
-/

namespace Lox
open Eval

inductive Flow.Twin (R : Record) (W : World) : Flow → Flow → Prop
  | normal : Flow.Twin R W .normal .normal
  | broke : Flow.Twin R W .broke .broke
  | returned {v v' : Value} : v.Twin R W v' → Flow.Twin R W (.returned v) (.returned v')

theorem Flow.Twin.result {R : Record} {W : World} {flow flow' : Flow} (h : flow.Twin R W flow') :
    flow.result.Twin R W flow'.result := by
  cases h with
  | normal => exact .nil
  | broke => exact .nil
  | returned hv => exact hv

/-- The frames of two calls bind the same names to like arguments. -/
theorem Closure.frame_agree {A : Value → Value → Prop} {f f' : Closure} (hp : f'.decl.params = f.decl.params)
    {args args' : List Value} (hargs : List.Forall₂ A args args') :
    (f.frame args).Agree A (f'.frame args') := by
  have hfold : ∀ (ps : List Token) {args args' : List Value} {t t' : Frame},
      List.Forall₂ A args args' → t.Agree A t' →
      ((ps.zip args).foldl (fun frame entry => frame.insert entry.1.lexeme entry.2) t).Agree A
        ((ps.zip args').foldl (fun frame entry => frame.insert entry.1.lexeme entry.2) t') := by
    intro ps
    induction ps with
    | nil => exact fun _ ht => ht
    | cons p rest ih =>
      intro args args' t t' hargs ht
      cases hargs with
      | nil => exact ht
      | cons hv hargs => exact ih hargs (ht.insert _ hv)
  unfold Closure.frame
  rw [hp]
  exact hfold _ hargs fun _ => .none

/-- All runs of depth `n`. -/
structure RunsTwin (host : Host) (n : Nat) : Prop where
  evaluate {R : Record} {W : World} {σ : Shape} {e e' : Expr} : e.Twin R σ e' →
    Eval.Twin R W σ (Value.Twin R) (evaluate host n e) (evaluate host n e')
  evaluateAll {R : Record} {W : World} {σ : Shape} {es es' : List Expr} : Expr.TwinAll R σ es es' →
    Eval.Twin R W σ (fun W => List.Forall₂ (Value.Twin R W)) (evaluateAll host n es) (evaluateAll host n es')
  call {R : Record} {W : World} {σ : Shape} (t : Token) {f f' : Value} {args args' : List Value} :
    f.Twin R W f' → List.Forall₂ (Value.Twin R W) args args' →
    Eval.Twin R W σ (Value.Twin R) (call host n t f args) (call host n t f' args')
  callClosure {R : Record} {W : World} {σ : Shape} (t : Token) {f f' : Closure} {args args' : List Value} :
    f.Twin R W [] f' → List.Forall₂ (Value.Twin R W) args args' →
    Eval.Twin R W σ (Value.Twin R) (callClosure host n t f args) (callClosure host n t f' args')
  execute {R : Record} {W : World} {σ : Shape} {s s' : Stmt} : s.Twin R σ s' →
    Eval.Twin R W σ (Flow.Twin R) (execute host n s) (execute host n s')
  executeAll {R : Record} {W : World} {σ : Shape} {ss ss' : List Stmt} : Stmt.TwinAll R σ ss ss' →
    Eval.Twin R W σ (Flow.Twin R) (executeAll host n ss) (executeAll host n ss')
  repeatWhile {R : Record} {W : World} {σ : Shape} {cond cond' : Expr} {body body' : Stmt} :
    cond.Twin R σ cond' → body.Twin R σ body' →
    Eval.Twin R W σ (Flow.Twin R) (repeatWhile host n cond body) (repeatWhile host n cond' body')
  load {R : Record} {W : World} {σ : Shape} (t : Token) (path : String) :
    Eval.Twin R W σ (fun _ => Eq) (load host n t path) (load host n t path)
  interpret {R : Record} {W : World} {σ : Shape} (program : List Stmt) :
    Eval.Twin R W σ (fun _ => Eq) (interpret host n program) (interpret host n program)

namespace RunsTwin

variable {host : Host} {R : Record} {W : World} {σ : Shape} {n : Nat} (ih : RunsTwin host n)
include ih

theorem next_evaluate {e e' : Expr} (he : e.Twin R σ e') :
    Eval.Twin R W σ (Value.Twin R) (Lox.evaluate host (n + 1) e) (Lox.evaluate host (n + 1) e') := by
  cases he with
  | literal v => exact .pure (Value.twin_ofLiteral v)
  | group he => exact ih.evaluate he
  | unary op he => exact .bind (ih.evaluate he) fun _ _ _ hv => .unaryOp op hv
  | binary op hl hr =>
    exact .bind (ih.evaluate hl) fun _ _ _ hv => .bind (ih.evaluate hr) fun hW _ _ hw =>
      .binaryOp op (hv.mono hW) hw
  | logical op hl hr =>
    refine .bind (ih.evaluate hl) fun _ v v' hv => ?_
    rw [Eval.Twin.settles op hv]
    exact .ite (.pure hv) (ih.evaluate hr)
  | var name hi => exact .lookUp hi name
  | assign name hi he =>
    exact .bind (ih.evaluate he) fun _ _ _ hv => .bind (.assign hi name hv) fun hW _ _ _ => .pure (hv.mono hW)
  | call paren hc ha =>
    refine .bind (ih.evaluate hc) fun _ f f' hf => .bind (ih.evaluateAll ha) fun hW args args' hargs => ?_
    rw [hf.callable?, ← hargs.length_eq]
    cases f.callable? with
    | none => exact .fail paren _
    | some c => exact .ite (ih.call paren (hf.mono hW) hargs) (.fail paren _)
  | get name ho =>
    refine .bind (ih.evaluate ho) fun _ v v' hv => ?_
    cases hv with
    | object id hc => exact .getProperty id hc name
    | _ => exact .fail name _
  | set name ho he =>
    refine .bind (ih.evaluate ho) fun _ v v' hv => ?_
    cases hv with
    | object id hc =>
      exact .bind (ih.evaluate he) fun _ _ _ hw => .bind (.setField id name hw) fun hW _ _ _ =>
        .pure (hw.mono hW)
    | _ => exact .fail name _
  | thisRef keyword hi => exact .lookUp hi keyword
  | superRef keyword method hi => exact .superMethod hi keyword method

theorem next_evaluateAll {es es' : List Expr} (hes : Expr.TwinAll R σ es es') :
    Eval.Twin R W σ (fun W => List.Forall₂ (Value.Twin R W)) (Lox.evaluateAll host (n + 1) es)
      (Lox.evaluateAll host (n + 1) es') := by
  cases hes with
  | nil => exact .pure .nil
  | cons he hrest =>
    exact .bind (ih.evaluate he) fun _ _ _ hv => .bind (ih.evaluateAll hrest) fun hW _ _ hvs =>
      .pure (.cons (hv.mono hW) hvs)

theorem next_call (hb : host.Impartial) (t : Token) {f f' : Value} {args args' : List Value}
    (hf : f.Twin R W f') (hargs : List.Forall₂ (Value.Twin R W) args args') :
    Eval.Twin R W σ (Value.Twin R) (Lox.call host (n + 1) t f args) (Lox.call host (n + 1) t f' args') := by
  cases hf with
  | native f => exact .callNative hb t f hargs
  | function _ hf => exact ih.callClosure t hf hargs
  | @classDef c c' hc =>
    refine .bind (.newObject hc) fun hW receiver receiver' hr => ?_
    have hi := (hc.mono hW).methods initName
    unfold Class.initializer?
    generalize c.findMethod initName = o at hi ⊢
    generalize c'.findMethod initName = o' at hi ⊢
    cases hi with
    | none => exact .pure hr
    | some hf =>
      exact .bind (.attach hr hf) fun hW₁ _ _ hg =>
        .bind (ih.callClosure t hg (hargs.imp fun _ _ => Value.Twin.mono (hW.trans hW₁))) fun hW₂ _ _ _ =>
          .pure (hr.mono (hW₁.trans hW₂))
  | _ => exact .fail t _

theorem next_callClosure (t : Token) {f f' : Closure} {args args' : List Value} (hf : f.Twin R W [] f')
    (hargs : List.Forall₂ (Value.Twin R W) args args') :
    Eval.Twin R W σ (Value.Twin R) (Lox.callClosure host (n + 1) t f args)
      (Lox.callClosure host (n + 1) t f' args') := by
  obtain ⟨τ, henv, hτ, hdecl⟩ := hf.place
  rw [Lox.callClosure, Lox.callClosure, hf.isInitializer]
  refine .bind (.extend henv (Closure.frame_agree hdecl.params hargs)) fun hW env env' he => ?_
  refine .bind (.inEnv he (ih.executeAll hdecl.body)) fun hW₁ flow flow' hflow => ?_
  refine .ite (.bind .get fun hW₂ m m' hm => ?_) (.pure hflow.result)
  -- The receiver is in the innermost frame of the environment of an initializer, which is one of both.
  have hthis := hm.frames.getAt? (henv.mono ((hW.trans hW₁).trans hW₂)) (Shape.Solid.meet hτ) "this"
  generalize m.frames.getAt? f.env 0 "this" = o at hthis ⊢
  generalize m'.frames.getAt? f'.env 0 "this" = o' at hthis ⊢
  cases hthis with
  | some hv => exact .pure hv
  | none => exact .fail t _

theorem next_execute {s s' : Stmt} (hs : s.Twin R σ s') :
    Eval.Twin R W σ (Flow.Twin R) (Lox.execute host (n + 1) s) (Lox.execute host (n + 1) s') := by
  cases hs with
  | expr he => exact .bind (ih.evaluate he) fun _ _ _ _ => .pure .normal
  | print he =>
    refine .bind (ih.evaluate he) fun _ v v' hv => ?_
    rw [hv.text]
    exact .bind (.writeLine _) fun _ _ _ _ => .pure .normal
  | varDecl name hσ hi =>
    have hdef : ∀ {W' : World} (_ : W.Grows W') v v', Value.Twin R W' v v' → Eval.Twin R W' σ (Flow.Twin R)
        (do Eval.define name.lexeme v; return .normal) (do Eval.define name.lexeme v'; return .normal) :=
      fun _ _ _ hv => .bind (.define hσ _ hv) fun _ _ _ _ => .pure .normal
    cases hi with
    | none => exact .bind (.pure .nil) hdef
    | some he => exact .bind (ih.evaluate he) hdef
  | block hb =>
    exact .bind .get fun _ m m' hm => .bind (.extend hm.env fun _ => .none) fun _ env env' he =>
      .inEnv he (ih.executeAll hb)
  | branch hc hy =>
    refine .bind (ih.evaluate hc) fun _ v v' hv => ?_
    rw [hv.truthy]
    exact .ite (ih.execute hy) (.pure .normal)
  | branchElse hc hy hn =>
    refine .bind (ih.evaluate hc) fun _ v v' hv => ?_
    rw [hv.truthy]
    exact .ite (ih.execute hy) (ih.execute hn)
  | loop hc hb => exact ih.repeatWhile hc hb
  | breakLoop _ => exact .pure .broke
  | function hσ hd =>
    refine .bind .get fun _ m m' hm => .bind (.newFunction ⟨⟨σ, hm.env, hσ, hd⟩, rfl⟩) fun _ f f' hf => ?_
    rw [hd.name]
    exact .bind (.define hσ _ hf) fun _ _ _ _ => .pure .normal
  | returnWith _ hv =>
    cases hv with
    | none => exact .pure (.returned .nil)
    | some he => exact .bind (ih.evaluate he) fun _ _ _ hv => .pure (.returned hv)
  | classDecl name hσ hm =>
    refine .bind (.define hσ _ .nil) fun _ _ _ _ =>
      .bind (A := fun _ parent parent' => parent = none ∧ parent' = none) (.pure ⟨rfl, rfl⟩) ?_
    rintro _ _ _ _ ⟨rfl, rfl⟩
    exact .bind (.defineClass name .none .methodEnv_none hm) fun _ _ _ _ => .pure .normal
  | @subclassDecl _ name e e' methods methods' hσ he hm =>
    have hdef : ∀ {W₁ W₂ : World} (_ : W₁.Grows W₂) parent parent',
        (∃ c c', parent = some c ∧ parent' = some c' ∧ Class.Twin R W₂ c c') → Eval.Twin R W₂ σ (Flow.Twin R)
          (do Eval.defineClass name parent methods; return .normal)
          (do Eval.defineClass name parent' methods'; return .normal) := by
      rintro _ _ _ _ _ ⟨c, c', rfl, rfl, hc⟩
      exact .bind (.defineClass name (.some hc) (.methodEnv_some hc) hm) fun _ _ _ _ => .pure .normal
    refine .bind (.define hσ _ .nil) fun _ _ _ _ => .bind (ih.evaluate he) fun _ v v' hv => ?_
    have hfail : ∀ {W₁ : World} {A : World → Option Class → Option Class → Prop}, Eval.Twin R W₁ σ A
        (Eval.fail (superclassToken name e) .superclassNotClass)
        (Eval.fail (superclassToken name e') .superclassNotClass) := by
      intro W₁ A
      rw [he.superclassToken]
      exact .fail _ _
    cases hv with
    | classDef hc => exact .bind (.pure ⟨_, _, rfl, rfl, hc⟩) hdef
    | _ => exact .bind hfail hdef
  | execute keyword hp =>
    refine .bind (ih.evaluate hp) fun _ v v' hv => ?_
    cases hv with
    | string path => exact .bind (ih.load keyword path) fun _ _ _ _ => .pure .normal
    | _ => exact .fail keyword _

theorem next_executeAll {ss ss' : List Stmt} (hss : Stmt.TwinAll R σ ss ss') :
    Eval.Twin R W σ (Flow.Twin R) (Lox.executeAll host (n + 1) ss) (Lox.executeAll host (n + 1) ss') := by
  cases hss with
  | nil => exact .pure .normal
  | cons hs hrest =>
    refine .bind (ih.execute hs) fun _ flow flow' hflow => ?_
    cases hflow with
    | normal => exact ih.executeAll hrest
    | broke => exact .pure .broke
    | returned hv => exact .pure (.returned hv)

theorem next_repeatWhile {cond cond' : Expr} (hc : cond.Twin R σ cond') {body body' : Stmt}
    (hb : body.Twin R σ body') :
    Eval.Twin R W σ (Flow.Twin R) (Lox.repeatWhile host (n + 1) cond body)
      (Lox.repeatWhile host (n + 1) cond' body') := by
  refine .bind (ih.evaluate hc) fun _ v v' hv => ?_
  rw [hv.truthy]
  refine .ite (.bind (ih.execute hb) fun _ flow flow' hflow => ?_) (.pure .normal)
  cases hflow with
  | normal => exact ih.repeatWhile hc hb
  | broke => exact .pure .normal
  | returned hv => exact .pure (.returned hv)

theorem next_load (hb : host.Impartial) (t : Token) (path : String) :
    Eval.Twin R W σ (fun _ => Eq) (Lox.load host (n + 1) t path) (Lox.load host (n + 1) t path) := by
  rw [Lox.load]
  cases hl : host.loader with
  | absent => exact .fail t _
  | custom load => exact .custom hb hl path
  | files =>
    refine .bind (.request path) fun _ _ _ _ => .bind (.readScript path) fun _ program program' hp => ?_
    cases hp
    exact ih.interpret program

/-- A program runs among the globals, which are frames of both. -/
theorem next_interpret (program : List Stmt) :
    Eval.Twin R W σ (fun _ => Eq) (Lox.interpret host (n + 1) program) (Lox.interpret host (n + 1) program) :=
  .flushing (fun _ h => h) fun _ _ hm =>
    Eval.Twin.inEnv hm.frames.spans_globals (.discard (ih.executeAll (Stmt.twinAll_self .nil program))) _ _ hm

end RunsTwin

theorem runsTwin {host : Host} (hb : host.Impartial) (n : Nat) : RunsTwin host n := by
  induction n with
  | zero => constructor <;> intros <;> exact .exhausted
  | succ n ih =>
    exact
      { evaluate := ih.next_evaluate
        evaluateAll := ih.next_evaluateAll
        call := ih.next_call hb
        callClosure := ih.next_callClosure
        execute := ih.next_execute
        executeAll := ih.next_executeAll
        repeatWhile := fun hc hbody => ih.next_repeatWhile hc hbody
        load := ih.next_load hb
        interpret := ih.next_interpret }

end Lox
