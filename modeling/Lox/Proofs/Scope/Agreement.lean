import Lox.Proofs.Scope.Closures

/-!
# Scopes and frames agree in every run

By induction on the depth of a run: from a good state at its place, an expression leads to a good
state and a sound value, and a statement binds the names that it declares and no others. In
particular every reference in the log agrees with the visit of the analysis.
-/

namespace Lox
open Scoping

/-- A statement that is no declaration declares nothing in its scope. -/
theorem Stmt.declared_eq_nil {s : Stmt} (hw : s.WellFormed) (hd : s.isDeclaration = false) :
    s.declared = [] := by
  cases s with
  | branch cond yes no =>
    cases no with
    | none => exact Stmt.declared_eq_nil (s := yes) hw.2.1 hw.2.2
    | some no =>
      rw [Stmt.declared, Stmt.declared_eq_nil hw.2.1.1 hw.2.1.2,
        Stmt.declared_eq_nil hw.2.2.1 hw.2.2.2]
      rfl
  | loop cond body => exact Stmt.declared_eq_nil (s := body) hw.2.1 hw.2.2
  | varDecl _ _ | function _ | classDecl _ _ _ => cases hd
  | _ => rfl

theorem Routine.wellFormed_eq (r : Routine) : r.WellFormed = Stmt.AllWellFormed r.body := by
  cases r
  rfl

theorem Routine.visits_eq (ctx : Context) (sites : List Site) (r : Routine) (a : Analysis) :
    r.visits ctx sites a = Stmt.visitsAll { ctx with inLoop := false } (.routine r :: sites) r.body
      (a.openScope.declareAll r.params) := by
  cases r
  rfl

namespace Trace

/-- The visits are known. -/
def Covers (s : State) (vs : List Visit) : Prop := ∀ v ∈ vs, Known s.log v

theorem Covers.later {s s' : State} {vs : List Visit} (h : Covers s vs) (hl : Later s s') :
    Covers s' vs :=
  fun v hv => (h v hv).mono hl.log

theorem covers_append {s : State} {vs ws : List Visit} :
    Covers s (vs ++ ws) ↔ Covers s vs ∧ Covers s ws :=
  List.forall_mem_append

theorem covers_single {s : State} {v : Visit} : Covers s [v] ↔ Known s.log v :=
  List.forall_mem_singleton

def SoundFlow (s : State) : Flow → Prop
  | .returned v => Sound s v
  | _ => True

theorem SoundFlow.result {s : State} {flow : Flow} (h : SoundFlow s flow) : Sound s flow.result := by
  cases flow with
  | returned v => exact h
  | _ => trivial

theorem SoundFlow.later {s s' : State} {flow : Flow} (h : SoundFlow s flow) (hl : Later s s') :
    SoundFlow s' flow := by
  cases flow with
  | returned v => exact Sound.later hl h
  | _ => trivial

/-- What holds of all runs of depth `n`. -/
structure RunsAgree (host : Host) (n : Nat) : Prop where
  evaluate : ∀ {s sites a ctx e}, Here s sites (outlines a.scopes) → e.WellFormed →
    Covers s (e.visits ctx sites a) →
    Yields nothing s (fun v s' => Sound s' v) (evaluate host n e s)
  evaluateAll : ∀ {s sites a ctx es}, Here s sites (outlines a.scopes) → Expr.AllWellFormed es →
    Covers s (Expr.visitsAll ctx sites es a) →
    Yields nothing s (fun vs s' => ∀ v ∈ vs, Sound s' v) (evaluateAll host n es s)
  call : ∀ {s f args x} (paren : Token), Good s → Sound s f → (∀ v ∈ args, Sound s v) →
    f.callable? = some (x, args.length) →
    Yields nothing s (fun v s' => Sound s' v) (call host n paren f args s)
  callClosure : ∀ {s f args} (paren : Token), Good s → SoundFunction s f →
    (∀ v ∈ args, Sound s v) → args.length = f.arity →
    Yields nothing s (fun v s' => Sound s' v) (callClosure host n paren f args s)
  execute : ∀ {s sites a ctx st}, Here s sites (outlines a.scopes) → Settled (outlines a.scopes) →
    st.WellFormed → Covers s (st.visits ctx sites a) →
    Yields (adds s.machine.env st.declared) s (fun flow s' => SoundFlow s' flow ∧
      (flow = .normal → Bound s' s.machine.env st.declared)) (execute host n st s)
  executeAll : ∀ {s sites a ctx ss}, Here s sites (outlines a.scopes) →
    Settled (outlines a.scopes) → Stmt.AllWellFormed ss → Covers s (Stmt.visitsAll ctx sites ss a) →
    Yields (adds s.machine.env (Stmt.declaredAll ss)) s (fun flow s' => SoundFlow s' flow)
      (executeAll host n ss s)
  repeatWhile : ∀ {s sites a ctx cond body}, Here s sites (outlines a.scopes) →
    Settled (outlines a.scopes) → (Stmt.loop cond body).WellFormed →
    Covers s ((Stmt.loop cond body).visits ctx sites a) →
    Yields nothing s (fun flow s' => SoundFlow s' flow) (repeatWhile host n cond body s)
  load : ∀ {s} (keyword : Token) (path : String), Good s →
    Yields nothing s (fun _ _ => True) (load host n keyword path s)
  interpret : ∀ {s program d}, Good s → .accepted program d ∈ s.log →
    Yields nothing s (fun _ _ => True) (interpret host n program s)

theorem Here.resolve {s : State} {sites : List Site} {a : Analysis}
    (h : Here s sites (outlines a.scopes)) (ctx : Context) (e : Expr) :
    Here s sites (outlines (e.resolve ctx a).scopes) := by
  rwa [Expr.outlines_resolve]

namespace RunsAgree

variable {host : Host} {n : Nat} {s : State} {sites : List Site} {a : Analysis} {ctx : Context}

theorem next_evaluate (ih : RunsAgree host n) {e : Expr} (h : Here s sites (outlines a.scopes))
    (hw : e.WellFormed) (hk : Covers s (e.visits ctx sites a)) :
    Yields nothing s (fun v s' => Sound s' v) (Trace.evaluate host (n + 1) e s) := by
  have hg := h.good
  cases e with
  | literal v => exact .pure hg (sound_ofLiteral v)
  | group inner => exact ih.evaluate h hw hk
  | unary op right =>
    refine .bind (ih.evaluate h hw hk) fun v s' h' hv => ?_
    exact (Quiet.unaryOp op v).yields h'.good fun _ _ _ _ hv' => Gives.unaryOp op v hv'
  | binary left op right =>
    rw [Expr.visits, covers_append] at hk
    refine .bind (ih.evaluate h hw.1 hk.1) fun v s₁ h₁ _ => ?_
    refine .bind (ih.evaluate ((h.resolve ctx left).after h₁) hw.2 (hk.2.later h₁.later))
      fun w s₂ h₂ _ => ?_
    exact (Quiet.binaryOp op v w).yields h₂.good fun _ _ _ _ hv' => Gives.binaryOp op v w hv'
  | logical left op right =>
    rw [Expr.visits, covers_append] at hk
    refine .bind (ih.evaluate h hw.1 hk.1) fun v s' h' hv => ?_
    split
    · exact .pure h'.good hv
    · exact ih.evaluate ((h.resolve ctx left).after h') hw.2 (hk.2.later h'.later)
  | var id name => exact h.lookUp (covers_single.1 hk)
  | assign id name value =>
    rw [Expr.visits, covers_append] at hk
    refine .bind (ih.evaluate h hw hk.1) fun v s' h' hv => ?_
    have hr := ((h.resolve ctx value).after h').assign (covers_single.1 (hk.2.later h'.later)) hv
    exact .bind hr fun _ s'' h'' _ => .pure h''.good (hv.later h''.later)
  | call callee paren args =>
    rw [Expr.visits, covers_append] at hk
    refine .bind (ih.evaluate h hw.1 hk.1) fun f s₁ h₁ hf => ?_
    refine .bind (ih.evaluateAll ((h.resolve ctx callee).after h₁) hw.2 (hk.2.later h₁.later))
      fun vs s₂ h₂ hvs => ?_
    cases hc : f.callable? with
    | none => exact .fail h₂.good _ _
    | some c =>
      obtain ⟨x, arity⟩ := c
      dsimp only
      split
      case isTrue harity =>
        exact ih.call paren h₂.good (hf.later h₂.later) hvs (by rw [hc, harity])
      case isFalse => exact .fail h₂.good _ _
  | get object name =>
    refine .bind (ih.evaluate h hw hk) fun v s' h' hv => ?_
    cases v with
    | object id c => exact .getProperty h'.good id hv name
    | _ => exact .fail h'.good _ _
  | set object name value =>
    -- the analysis sees the value before the object
    rw [Expr.visits, covers_append] at hk
    refine .bind (ih.evaluate (h.resolve ctx value) hw.1 hk.2) fun v s₁ h₁ hv => ?_
    cases v with
    | object id c =>
      refine .bind (ih.evaluate (h.after h₁) hw.2 (hk.1.later h₁.later)) fun w s₂ h₂ hw => ?_
      refine .bind (.setField h₂.good id name hw) fun _ s₃ h₃ _ => ?_
      exact .pure h₃.good (hw.later h₃.later)
    | _ => exact .fail h₁.good _ _
  | thisRef id keyword => exact h.lookUp (covers_single.1 hk)
  | superRef id keyword method => exact h.superMethod method (covers_single.1 hk)

theorem next_evaluateAll (ih : RunsAgree host n) {es : List Expr}
    (h : Here s sites (outlines a.scopes)) (hw : Expr.AllWellFormed es)
    (hk : Covers s (Expr.visitsAll ctx sites es a)) :
    Yields nothing s (fun vs s' => ∀ v ∈ vs, Sound s' v) (Trace.evaluateAll host (n + 1) es s) := by
  cases es with
  | nil => exact .pure h.good nofun
  | cons e rest =>
    rw [Expr.visitsAll, covers_append] at hk
    refine .bind (ih.evaluate h hw.1 hk.1) fun v s₁ h₁ hv => ?_
    refine .bind (ih.evaluateAll ((h.resolve ctx e).after h₁) hw.2 (hk.2.later h₁.later))
      fun vs s₂ h₂ hvs => ?_
    exact .pure h₂.good (List.forall_mem_cons.2 ⟨hv.later h₂.later, hvs⟩)

theorem next_call (hh : host.Honest) (ih : RunsAgree host n) {f : Value} {args : List Value}
    {x : String} (paren : Token) (hg : Good s) (hf : Sound s f) (ha : ∀ v ∈ args, Sound s v)
    (hc : f.callable? = some (x, args.length)) :
    Yields nothing s (fun v s' => Sound s' v) (Trace.call host (n + 1) paren f args s) := by
  cases f with
  | native f =>
    refine (Quiet.callNative host paren f args).yields hg fun v s' m h' hv => ?_
    exact (sound_of_callNative hh hg ha hv).later h'.later
  | function id f =>
    simp only [Value.callable?, Option.some.injEq, Prod.mk.injEq] at hc
    exact ih.callClosure paren hg hf ha hc.2.symm
  | classDef c =>
    simp only [Value.callable?, Option.some.injEq, Prod.mk.injEq] at hc
    refine .bind (.newObject hg hf) fun receiver s₁ h₁ hr => ?_
    cases hi : c.initializer? with
    | none => exact .pure h₁.good hr
    | some init =>
      have hinit : SoundMethod s₁ init := (hf _ init hi).later h₁.later
      refine .bind (.attach h₁.good hr hinit) fun g s₂ h₂ hg => ?_
      have harity : args.length = g.arity := by
        rw [← hc.2, Class.arity, hi, Closure.arity, hg.2]
        rfl
      have hargs : ∀ v ∈ args, Sound s₂ v := fun v hv => (ha v hv).later (h₁.later.trans h₂.later)
      refine .bind (ih.callClosure paren h₂.good hg.1 hargs harity) fun _ s₃ h₃ _ => ?_
      exact .pure h₃.good (hr.later (h₂.later.trans h₃.later))
  | _ => cases hc

/-- A body only adds names to its own frame. -/
theorem executeAll_enter (ih : RunsAgree host n) {site : Site} {outer : Env} {frame : Frame}
    {body : List Stmt} (he : After nothing s (s.enter site outer frame))
    (h : Here ((s.enter site outer frame).inEnv (s.machine.frames.size :: outer)) sites
      (outlines a.scopes))
    (hs : Settled (outlines a.scopes)) (hw : Stmt.AllWellFormed body)
    (hk : Covers s (Stmt.visitsAll ctx sites body a)) :
    Yields (fun i _ => i = s.machine.frames.size) (s.enter site outer frame)
      (fun flow s' => SoundFlow s' flow)
      (inEnv (s.machine.frames.size :: outer) (Trace.executeAll host n body)
        (s.enter site outer frame)) := by
  have hb := ih.executeAll h hs hw ((hk.later he.later).later (.inEnv _ _))
  refine .inEnv (hb.imp ?_ fun flow s' _ hf => hf) fun flow s' hf => hf.later (.inEnv _ _)
  rintro i name ⟨hi, -⟩
  exact .inr (Option.some.inj hi).symm

theorem next_callClosure (ih : RunsAgree host n) {f : Closure} {args : List Value} (paren : Token)
    (hg : Good s) (hf : SoundFunction s f) (ha : ∀ v ∈ args, Sound s v)
    (hl : args.length = f.arity) :
    Yields nothing s (fun v s' => Sound s' v) (Trace.callClosure host (n + 1) paren f args s) := by
  obtain ⟨hw, ctx, sites, a, hm, hs, hk⟩ := hf
  rw [Routine.wellFormed_eq] at hw
  rw [Routine.visits_eq] at hk
  have hframe : ∀ {name v}, (f.frame args).get? name = some v → Sound s v :=
    fun hv => ha _ (Closure.mem_of_get?_frame hv)
  have hset : Settled (outlines (a.openScope.declareAll f.decl.params).scopes) := by
    rw [Analysis.outlines_declareAll, Analysis.outlines_openScope]
    refine Settled.bindAll (List.forall_mem_cons.2 ⟨fun name hn => ?_, hs⟩) _
    cases hn
  rw [Trace.callClosure, Ending.bind_ok (extend_apply _ _ _)]
  refine .enter hg (.routine f.decl) f.env hframe ?_
  refine .bind (ih.executeAll_enter (.enter hg hframe) (SoundFunction.enter hg ha hl hm hs) hset hw hk)
    fun flow s₂ h₂ hflow => ?_
  split
  · rw [Ending.bind_ok lift_get_apply]
    cases hr : s₂.machine.frames.getAt? f.env 0 "this" with
    | some receiver => exact .pure h₂.good (sound_of_getAt? h₂.good hr)
    | none => exact .fail h₂.good _ _
  · exact .pure h₂.good hflow.result

/-- A statement that declares nothing adds no names. -/
theorem of_not_declared {st : Stmt} {r : EStateM.Result Stop State Flow} (hd : st.declared = [])
    (h : Yields nothing s (fun flow s' => SoundFlow s' flow) r) :
    Yields (adds s.machine.env st.declared) s (fun flow s' => SoundFlow s' flow ∧
      (flow = .normal → Bound s' s.machine.env st.declared)) r := by
  refine h.imp (fun _ _ hf => hf.elim) fun flow s' _ hf => ⟨hf, fun _ i _ name hn => ?_⟩
  rw [hd] at hn
  cases hn

theorem execute_block (ih : RunsAgree host n) {body : List Stmt}
    (h : Here s sites (outlines a.scopes)) (hs : Settled (outlines a.scopes))
    (hw : Stmt.AllWellFormed body)
    (hk : Covers s (Stmt.visitsAll ctx (.block body :: sites) body a.openScope)) :
    Yields nothing s (fun flow s' => SoundFlow s' flow)
      (Trace.execute host (n + 1) (.block body) s) := by
  have hb : After nothing s (s.note (.began (.block body) s.machine)) := h.begin hs hw hk
  rw [Trace.execute, Ending.bind_ok (note_apply _)]
  refine .after hb ?_
  replace h := h.after hb
  replace hk := hk.later hb.later
  generalize s.note _ = s at h hk
  have hframe : ∀ {name v}, Table.get? ([] : Frame) name = some v → Sound s v := nofun
  have he : After nothing s (s.enter (.block body) s.machine.env []) := .enter h.good hframe
  rw [Ending.bind_ok lift_get_apply, Ending.bind_ok (extend_apply _ _ _)]
  refine .enter h.good (.block body) s.machine.env hframe ?_
  refine ih.executeAll_enter (a := a.openScope) he ⟨he.good.inEnv _, ?_, ?_, hs⟩ ?_ hw hk
  · exact (h.env.enter fun _ hn => by cases hn).later (.inEnv _ _)
  · intro name hn
    have hb : (s.push []).Binds s.machine.frames.size name := hn
    rw [State.binds_push, if_pos rfl] at hb
    cases hb
  · exact List.forall_mem_cons.2 ⟨nofun, hs⟩

/-- A value is found and then given a name. -/
theorem define_value {p : Traced Value} (h : Here s sites (outlines a.scopes)) (name : String)
    (hp : Yields nothing s (fun v s' => Sound s' v) (p s)) :
    Yields (adds s.machine.env [name]) s (fun flow s' => SoundFlow s' flow ∧
      (flow = .normal → Bound s' s.machine.env [name]))
      ((do let v ← p
           lift (Eval.define name v)
           return .normal : Traced Flow) s) := by
  refine .bind (hp.imp (fun _ _ hf => hf.elim) fun v s' h' hv => And.intro h' hv)
    fun v s₁ _ hq => ?_
  obtain ⟨h₁, hv⟩ := hq
  have hd := (h.after h₁).define name fun s' hl _ => hv.later hl
  rw [h₁.env] at hd
  exact .bind hd fun _ s₂ h₂ hb => .pure h₂.good ⟨trivial, fun _ => hb⟩

theorem execute_varDecl (ih : RunsAgree host n) {name : Token} {init : Option Expr}
    (h : Here s sites (outlines a.scopes)) (hw : Expr.OptionWellFormed init)
    (hk : Covers s (Expr.visitsOption ctx sites init (a.declare name))) :
    Yields (adds s.machine.env [name.lexeme]) s (fun flow s' => SoundFlow s' flow ∧
      (flow = .normal → Bound s' s.machine.env [name.lexeme]))
      (Trace.execute host (n + 1) (.varDecl name init) s) := by
  cases init with
  | none => exact define_value h name.lexeme (p := pure .nil) (.pure h.good trivial)
  | some e =>
    have hd := h.declare name.lexeme
    rw [← Analysis.outlines_declare] at hd
    exact define_value h name.lexeme (ih.evaluate hd hw hk)

theorem execute_function (host : Host) (n : Nat) {decl : Routine}
    (h : Here s sites (outlines a.scopes)) (hs : Settled (outlines a.scopes)) (hw : decl.WellFormed)
    (hk : Covers s (decl.visits ctx sites ((a.declare decl.name).define decl.name))) :
    Yields (adds s.machine.env [decl.name.lexeme]) s (fun flow s' => SoundFlow s' flow ∧
      (flow = .normal → Bound s' s.machine.env [decl.name.lexeme]))
      (Trace.execute host (n + 1) (.function decl) s) := by
  rw [Trace.execute, Ending.bind_ok lift_get_apply]
  have hf := (Quiet.newFunction ⟨decl, s.machine.env, false⟩).yields (A := nothing) h.good
    (Q := fun v s' => ∃ id, v = .function id ⟨decl, s.machine.env, false⟩) (by
      rintro _ _ _ _ ⟨⟩
      exact ⟨_, rfl⟩)
  refine .bind (hf.imp (fun _ _ hf => hf.elim) fun v s' h' hv => And.intro h' hv)
    fun v s₁ _ hq => ?_
  obtain ⟨h₁, id, rfl⟩ := hq
  have hd := (h.after h₁).define decl.name.lexeme
    (v := .function id ⟨decl, s.machine.env, false⟩) fun s' hl hm => by
      rw [← Analysis.outlines_bind, h₁.env] at hm
      refine ⟨hw, ctx, sites, _, hm, ?_, hk.later (h₁.later.trans hl)⟩
      rw [Analysis.outlines_bind]
      exact hs.bindAll [decl.name.lexeme]
  rw [h₁.env] at hd
  exact .bind hd fun _ s₂ h₂ hb => .pure h₂.good ⟨trivial, fun _ => hb⟩

/-- From the state in which the name of a class is bound and its superclass is known. -/
theorem defineClass_none {name : Token} {methods : List Routine}
    (h : Here s sites (Outline.bind name.lexeme (outlines a.scopes)))
    (hs : Settled (Outline.bind name.lexeme (outlines a.scopes)))
    (hw : Routine.AllWellFormed methods)
    (hk : Covers s (Routine.visitsMethods ctx sites methods (a.enterClass name))) :
    Yields nothing s (fun _ _ => True) (Trace.defineClass name none methods s) := by
  refine .defineClass hw nofun (.methodEnv_none h.good h.env) hs ?_ hk
  rw [Analysis.enterClass, Analysis.outlines_provide, Analysis.outlines_openScope,
    Analysis.outlines_bind]
  rfl

theorem defineClass_some {name : Token} {parent : Class} {methods : List Routine}
    {superclass : Expr} (hp : SoundClass s parent)
    (h : Here s sites (Outline.bind name.lexeme (outlines a.scopes)))
    (hs : Settled (Outline.bind name.lexeme (outlines a.scopes)))
    (hw : Routine.AllWellFormed methods)
    (hk : Covers s (Routine.visitsMethods ctx (.parent methods :: sites) methods
      ((superclass.resolve ctx (a.enterSubclass name superclass)).enterMethods name))) :
    Yields nothing s (fun _ _ => True) (Trace.defineClass name (some parent) methods s) := by
  have hset : Settled (Outline.empty.update "super" true ::
      Outline.bind name.lexeme (outlines a.scopes)) := by
    refine List.forall_mem_cons.2 ⟨fun x => ?_, hs⟩
    by_cases hx : x = "super" <;> simp [Outline.update, Outline.empty, hx]
  refine .defineClass hw ?_ (.methodEnv_some h.good hp h.env) hset ?_ hk
  · rintro _ ⟨⟩
    exact hp
  · rw [Analysis.enterMethods, Analysis.outlines_provide, Analysis.outlines_openScope,
      Analysis.outlines_provide, Analysis.outlines_openScope, Expr.outlines_resolve,
      Analysis.enterSubclass, Analysis.scopes_checkSuperclass, Analysis.outlines_bind]
    rfl

theorem execute_classDecl (ih : RunsAgree host n) {name : Token} {superclass : Option Expr}
    {methods : List Routine} (h : Here s sites (outlines a.scopes))
    (hs : Settled (outlines a.scopes)) (hw : (Stmt.classDecl name superclass methods).WellFormed)
    (hk : Covers s ((Stmt.classDecl name superclass methods).visits ctx sites a)) :
    Yields (adds s.machine.env [name.lexeme]) s (fun flow s' => SoundFlow s' flow ∧
      (flow = .normal → Bound s' s.machine.env [name.lexeme]))
      (Trace.execute host (n + 1) (.classDecl name superclass methods) s) := by
  have hnil := h.define name.lexeme (v := .nil) fun _ _ _ => trivial
  refine .bind (hnil.imp (fun _ _ hA => .inr hA) fun _ s' h' hb => And.intro h' hb)
    fun _ s₁ _ hq => ?_
  obtain ⟨h₁, hb⟩ := hq
  have hhere : Here s₁ sites (Outline.bind name.lexeme (outlines a.scopes)) := h.next h₁ hb
  have hset : Settled (Outline.bind name.lexeme (outlines a.scopes)) := hs.bindAll [name.lexeme]
  -- from here on no names are added, and the name of the class stays bound
  suffices hrest : ∀ p : Traced Flow,
      Yields nothing s₁ (fun flow _ => flow = .normal) (p s₁) →
      Yields (adds s.machine.env [name.lexeme]) s₁ (fun flow s' => SoundFlow s' flow ∧
        (flow = .normal → Bound s' s.machine.env [name.lexeme])) (p s₁) by
    have hlast : ∀ {s₂ c}, Yields nothing s₂ (fun _ _ => True) (Trace.defineClass name c methods s₂) →
        Yields nothing s₂ (fun flow _ => flow = .normal)
          ((do Trace.defineClass name c methods
               return .normal : Traced Flow) s₂) :=
      fun hd => .bind hd fun _ _ h => fun _ => .pure h.good rfl
    refine hrest _ ?_
    cases superclass with
    | none =>
      have hd := defineClass_none hhere hset hw.2 (hk.later h₁.later)
      exact hlast hd
    | some e =>
      obtain ⟨hke, hkm⟩ := covers_append.1 (by rwa [Stmt.visits] at hk)
      obtain ⟨id, superName, rfl⟩ := hw.1
      have hentry : Here s₁ sites (outlines (a.enterSubclass name (.var id superName)).scopes) := by
        rwa [Analysis.enterSubclass, Analysis.scopes_checkSuperclass, Analysis.outlines_bind]
      refine .bind (ih.evaluate hentry trivial (hke.later h₁.later)) fun v s₂ h₂ hv => ?_
      cases v with
      | classDef c =>
        have hd := defineClass_some hv (hhere.after h₂) hset hw.2 (hkm.later (h₁.later.trans h₂.later))
        exact hlast hd
      | _ => exact .bind (Q := fun _ _ => False) (.fail h₂.good _ _) fun _ _ _ hf => hf.elim
  intro p hp
  refine hp.imp (fun _ _ hf => hf.elim) fun flow s' h' hf => ?_
  subst hf
  exact ⟨trivial, fun _ => hb.later h'.later⟩

theorem execute_branch (ih : RunsAgree host n) {cond : Expr} {yes : Stmt} {no : Option Stmt}
    (h : Here s sites (outlines a.scopes)) (hs : Settled (outlines a.scopes))
    (hw : (Stmt.branch cond yes no).WellFormed)
    (hk : Covers s ((Stmt.branch cond yes no).visits ctx sites a)) :
    Yields nothing s (fun flow s' => SoundFlow s' flow)
      (Trace.execute host (n + 1) (.branch cond yes no) s) := by
  have hcond : Here s sites (outlines (cond.resolve ctx a).scopes) := h.resolve ctx cond
  -- neither side declares anything
  have hside : ∀ {a' : Analysis} {st : Stmt} {s₁ : State}, outlines a'.scopes = outlines a.scopes →
      st.WellFormed → st.isDeclaration = false → After nothing s s₁ →
      Covers s (st.visits ctx sites a') →
      Yields nothing s₁ (fun flow s' => SoundFlow s' flow) (Trace.execute host n st s₁) := by
    intro a' st s₁ ha hw hd h₁ hk
    have hst := ih.execute (a := a') (ha ▸ h.after h₁) (ha ▸ hs) hw (hk.later h₁.later)
    rw [Stmt.declared_eq_nil hw hd] at hst
    exact hst.imp (fun _ _ hf => absurd hf.2 List.not_mem_nil) fun _ _ _ hq => hq.1
  cases no with
  | none =>
    rw [Stmt.visits, covers_append] at hk
    refine .bind (ih.evaluate h hw.1 hk.1) fun v s₁ h₁ _ => ?_
    split
    · exact hside (Expr.outlines_resolve ctx cond a) hw.2.1 hw.2.2 h₁ hk.2
    · exact .pure h₁.good trivial
  | some no =>
    rw [Stmt.visits, covers_append, covers_append] at hk
    refine .bind (ih.evaluate h hw.1 hk.1) fun v s₁ h₁ _ => ?_
    split
    · exact hside (Expr.outlines_resolve ctx cond a) hw.2.1.1 hw.2.1.2 h₁ hk.2.1
    · refine hside ?_ hw.2.2.1 hw.2.2.2 h₁ hk.2.2
      rw [Stmt.outlines_resolve, Stmt.declared_eq_nil hw.2.1.1 hw.2.1.2, Expr.outlines_resolve]
      rfl

theorem next_execute (ih : RunsAgree host n) {st : Stmt} (h : Here s sites (outlines a.scopes))
    (hs : Settled (outlines a.scopes)) (hw : st.WellFormed) (hk : Covers s (st.visits ctx sites a)) :
    Yields (adds s.machine.env st.declared) s (fun flow s' => SoundFlow s' flow ∧
      (flow = .normal → Bound s' s.machine.env st.declared)) (Trace.execute host (n + 1) st s) := by
  cases st with
  | expr e =>
    exact of_not_declared rfl (.bind (ih.evaluate h hw hk) fun _ _ h' _ => .pure h'.good trivial)
  | print e =>
    refine of_not_declared rfl (.bind (ih.evaluate h hw hk) fun v s₁ h₁ _ => ?_)
    refine .bind (Q := fun _ _ => True) ?_ fun _ _ h₂ _ => .pure h₂.good trivial
    exact (Quiet.writeLine v.text).yields h₁.good fun _ _ _ _ _ => trivial
  | varDecl name init => exact ih.execute_varDecl h hw hk
  | block body => exact of_not_declared rfl (ih.execute_block h hs hw hk)
  | branch cond yes no =>
    exact of_not_declared (Stmt.declared_eq_nil hw rfl) (ih.execute_branch h hs hw hk)
  | loop cond body =>
    have hb : After nothing s (s.note (.began (.loop cond body) s.machine)) := h.begin hs hw hk
    refine of_not_declared (Stmt.declared_eq_nil hw rfl) ?_
    rw [Trace.execute, Ending.bind_ok (note_apply _)]
    exact .after hb (ih.repeatWhile (h.after hb) hs hw (hk.later hb.later))
  | breakLoop keyword => exact of_not_declared rfl (.pure h.good trivial)
  | function decl => exact execute_function host n h hs hw hk
  | returnWith keyword value =>
    refine of_not_declared rfl ?_
    cases value with
    | none => exact .pure h.good trivial
    | some e =>
      simp only [Stmt.visits] at hk
      refine .bind (ih.evaluate ?_ hw hk) fun _ _ h' hv => .pure h'.good hv
      rwa [Analysis.scopes_failIf, Analysis.scopes_failIf]
  | classDecl name superclass methods => exact ih.execute_classDecl h hs hw hk
  | execute keyword path =>
    refine of_not_declared rfl (.bind (ih.evaluate h hw hk) fun v s₁ h₁ _ => ?_)
    cases v with
    | string path =>
      exact .bind (ih.load keyword path h₁.good) fun _ _ h' _ => .pure h'.good trivial
    | _ => exact .fail h₁.good _ _

theorem next_repeatWhile (ih : RunsAgree host n) {cond : Expr} {body : Stmt}
    (h : Here s sites (outlines a.scopes)) (hs : Settled (outlines a.scopes))
    (hw : (Stmt.loop cond body).WellFormed)
    (hk : Covers s ((Stmt.loop cond body).visits ctx sites a)) :
    Yields nothing s (fun flow s' => SoundFlow s' flow)
      (Trace.repeatWhile host (n + 1) cond body s) := by
  obtain ⟨hcond, hbody⟩ := covers_append.1 (by rwa [Stmt.visits] at hk)
  refine .bind (ih.evaluate h hw.1 hcond) fun v s₁ h₁ _ => ?_
  have hdecl : body.declared = [] := Stmt.declared_eq_nil hw.2.1 hw.2.2
  split
  · have hb := ih.execute ((h.resolve ctx cond).after h₁) (by rwa [Expr.outlines_resolve]) hw.2.1
      (hbody.later h₁.later)
    rw [hdecl] at hb
    refine .bind (hb.imp (fun _ _ hf => absurd hf.2 List.not_mem_nil) fun _ _ _ hq => hq)
      fun flow s₂ h₂ hflow => ?_
    cases flow with
    | normal => exact ih.repeatWhile ((h.after h₁).after h₂) hs hw (hk.later (h₁.later.trans h₂.later))
    | broke => exact .pure h₂.good trivial
    | returned v => exact .pure h₂.good hflow.1
  · exact .pure h₁.good trivial

theorem next_executeAll (ih : RunsAgree host n) {ss : List Stmt}
    (h : Here s sites (outlines a.scopes)) (hs : Settled (outlines a.scopes))
    (hw : Stmt.AllWellFormed ss) (hk : Covers s (Stmt.visitsAll ctx sites ss a)) :
    Yields (adds s.machine.env (Stmt.declaredAll ss)) s (fun flow s' => SoundFlow s' flow)
      (Trace.executeAll host (n + 1) ss s) := by
  cases ss with
  | nil => exact .pure h.good trivial
  | cons st rest =>
    rw [Stmt.visitsAll, covers_append] at hk
    have hleft : ∀ i name, adds s.machine.env st.declared i name →
        i = 0 ∨ adds s.machine.env (Stmt.declaredAll (st :: rest)) i name :=
      fun i name hi => .inr ⟨hi.1, List.mem_append_left _ hi.2⟩
    have hst := ih.execute h hs hw.1 hk.1
    refine .bind (hst.imp hleft fun flow s' h' hq => And.intro h' hq) fun flow s₁ h₁ hflow => ?_
    obtain ⟨h₁, hsound, hbound⟩ := hflow
    cases flow with
    | broke => exact .pure h₁.good trivial
    | returned v => exact .pure h₁.good hsound
    | normal =>
      have hnext := h.next h₁ (hbound rfl)
      rw [← Stmt.outlines_resolve ctx] at hnext
      have hset : Settled (outlines (st.resolve ctx a).scopes) := by
        rw [Stmt.outlines_resolve]
        exact hs.bindAll _
      refine (ih.executeAll hnext hset hw.2 (hk.2.later h₁.later)).imp ?_ fun _ _ _ hq => hq
      rintro i name ⟨hi, hmem⟩
      rw [h₁.env] at hi
      exact .inr ⟨hi, List.mem_append_right _ hmem⟩

theorem next_load (hh : host.Honest) (ih : RunsAgree host n) (keyword : Token) (path : String)
    (hg : Good s) : Yields nothing s (fun _ _ => True) (Trace.load host (n + 1) keyword path s) := by
  rw [Trace.load]
  cases hl : host.loader with
  | absent => exact .fail hg _ _
  | custom f =>
    have hs : After nothing s { s with machine := (f path s.machine).2 } :=
      .onlyGlobals hg (hh.loader f hl path s.machine)
    dsimp only [lift]
    cases hf : f path s.machine with
    | mk result m =>
      rw [hf] at hs
      cases result with
      | ok _ => exact ⟨hs, trivial⟩
      | error e => exact hs
  | files =>
    refine .bind (Q := fun _ _ => True)
      ((Quiet.request path).yields hg fun _ _ _ _ _ => trivial) fun _ s₁ h₁ _ => ?_
    refine .bind (.readScript h₁.good host path) fun program s₂ h₂ hp => ?_
    obtain ⟨d, hp⟩ := hp
    exact ih.interpret h₂.good hp

theorem next_interpret (ih : RunsAgree host n) {program : List Stmt} {d : Distances} (hg : Good s)
    (hp : .accepted program d ∈ s.log) :
    Yields nothing s (fun _ _ => True) (Trace.interpret host (n + 1) program s) := by
  have hl := hg.programs hp
  have hhere : Here (s.inEnv Machine.globals) []
      (outlines ({ distances := d } : Analysis).scopes) :=
    ⟨hg.inEnv _, .globals, trivial, nofun⟩
  have hk : Covers (s.inEnv Machine.globals) (Stmt.visitsProgram program d) :=
    fun v hv => ⟨program, d, hp, hv⟩
  have hall := ih.executeAll hhere nofun hl.wellFormed hk
  refine .flushing (Q := fun _ _ => True) (.inEnv (Q := fun _ _ => True) ?_ fun _ _ h => h)
    fun _ _ _ _ h => h
  refine .bind (hall.imp (B := nothing) ?_ fun _ _ _ h => h) fun _ s' h _ => .pure h.good trivial
  -- a program declares its names among the globals
  rintro i name ⟨hi, -⟩
  exact .inl (Option.some.inj hi).symm

end RunsAgree

/-- In every run of an honest host, of any depth, scopes and frames agree. -/
theorem runsAgree {host : Host} (hh : host.Honest) (n : Nat) : RunsAgree host n := by
  induction n with
  | zero =>
    exact
      { evaluate := fun h _ _ => .throw h.good
        evaluateAll := fun h _ _ => .throw h.good
        call := fun _ hg _ _ _ => .throw hg
        callClosure := fun _ hg _ _ _ => .throw hg
        execute := fun h _ _ _ => .throw h.good
        executeAll := fun h _ _ _ => .throw h.good
        repeatWhile := fun h _ _ _ => .throw h.good
        load := fun _ _ hg => .throw hg
        interpret := fun hg _ => .throw hg }
  | succ n ih =>
    exact
      { evaluate := ih.next_evaluate
        evaluateAll := ih.next_evaluateAll
        call := ih.next_call hh
        callClosure := ih.next_callClosure
        execute := ih.next_execute
        executeAll := ih.next_executeAll
        repeatWhile := ih.next_repeatWhile
        load := ih.next_load hh
        interpret := ih.next_interpret }

end Trace
end Lox
