import Lox.Proofs.Isolation.Cells
import Lox.Proofs.Scripts

/-!
# Activations are isolated

A computation on two machines that are alike ends in the same way on both and leaves them alike, as long as its
environment and its operands mention no cell set apart. Hence cells that cannot be reached from the environment
and the globals stay as they are and have no influence; and for a call even its caller's environment does
not count, only the callee and its arguments.
-/

namespace Lox
open Ending

namespace Division

variable {α β : Type} {D : Division} {env inner : Env} {P : β → Prop} {Q : α → Prop}

/-- Both end in the same way, and the machines are alike again. -/
inductive Ends (D : Division) (env : Env) (Q : α → Prop) :
    EStateM.Result Stop Machine α → EStateM.Result Stop Machine α → Prop
  | ok {a : α} {m m' : Machine} : Q a → D.Alike env m m' → Ends D env Q (.ok a m) (.ok a m')
  | error (e : Stop) {m m' : Machine} : D.Alike env m m' → Ends D env Q (.error e m) (.error e m')

/-- In that environment, from machines that are alike the computation ends in the same way, in a result as `Q` says. -/
def Keeps (D : Division) (env : Env) (Q : α → Prop) (act : Eval α) : Prop :=
  ∀ m m', D.Alike env m m' → D.Ends env Q (act m) (act m')

namespace Keeps

/-! ## Composed computations -/

theorem pure {a : α} (ha : Q a) : D.Keeps env Q (Pure.pure a) := fun _ _ h => .ok ha h

theorem throw (e : Stop) : D.Keeps env Q (MonadExcept.throw e) := fun _ _ h => .error e h

theorem fail (t : Token) (fault : RuntimeFault) : D.Keeps env Q (Eval.fail t fault) := throw _

theorem settled {act : Eval Value} (h : Eval.Settled act) : D.Keeps env (·.Avoids D.apart) act := by
  cases h with
  | value hv => exact pure (.of_isPlain hv)
  | fault t fault => exact fail t fault

theorem bind {p : Eval α} {f : α → Eval β} (hp : D.Keeps env Q p) (hf : ∀ a, Q a → D.Keeps env P (f a)) :
    D.Keeps env P (p >>= f) := by
  intro m m' h
  have hends := hp m m' h
  cases hm : p m with
  | ok a m₁ =>
    cases hm' : p m' with
    | ok a' m₁' =>
      rw [hm, hm'] at hends
      cases hends with
      | ok ha h₁ =>
        rw [bind_ok hm, bind_ok hm']
        exact hf a ha m₁ m₁' h₁
    | error e m₁' =>
      rw [hm, hm'] at hends
      cases hends
  | error e m₁ =>
    cases hm' : p m' with
    | ok a' m₁' =>
      rw [hm, hm'] at hends
      cases hends
    | error e' m₁' =>
      rw [hm, hm'] at hends
      cases hends with
      | error _ h₁ =>
        rw [bind_error hm, bind_error hm']
        exact .error e h₁

theorem discard {p : Eval α} (hp : D.Keeps env Q p) : D.Keeps env (fun _ => True) (Functor.discard p) :=
  bind hp fun _ _ => pure trivial

/-- Looks at the machine only in what is the same on both. -/
theorem get_bind {f : Machine → Eval α}
    (hf : ∀ m m', D.Alike env m m' → f m' = f m ∧ D.Keeps env Q (f m)) : D.Keeps env Q (get >>= f) := by
  intro m m' h
  rw [bind_ok (Ending.get_apply (s := m)), bind_ok (Ending.get_apply (s := m'))]
  obtain ⟨hsame, hkeeps⟩ := hf m m' h
  rw [hsame]
  exact hkeeps m m' h

theorem inEnv {p : Eval α} (hp : D.Keeps inner Q p) : D.Keeps env Q (Eval.inEnv inner p) := by
  intro m m' h
  obtain ⟨frames, objects, rfl⟩ : ∃ fs os, m' = { m with frames := fs, objects := os } := ⟨_, _, h.rest⟩
  have hinner : D.Alike inner { m with env := inner }
      { m with frames := frames, objects := objects, env := inner } :=
    h.carry rfl rfl ⟨rfl, rfl⟩ ⟨rfl, rfl⟩
  have hends := hp _ _ hinner
  have hback : ∀ {m₁ m₁'}, D.Alike inner m₁ m₁' →
      D.Alike env { m₁ with env := m.env } { m₁' with env := m.env } := by
    intro m₁ m₁' h₁
    obtain ⟨fs, os, rfl⟩ : ∃ fs os, m₁' = { m₁ with frames := fs, objects := os } := ⟨_, _, h₁.rest⟩
    exact h₁.carry h.env rfl ⟨rfl, rfl⟩ ⟨rfl, rfl⟩
  unfold Eval.inEnv
  dsimp only
  generalize p { m with env := inner } = r at hends ⊢
  generalize p { m with frames := frames, objects := objects, env := inner } = r' at hends ⊢
  cases hends with
  | ok ha h₁ => exact .ok ha (hback h₁)
  | error e h₁ => exact .error e (hback h₁)

/-- A step that has nothing to do with cells. -/
theorem quiet {act : Eval α}
    (hact : ∀ m fs os, act { m with frames := fs, objects := os } =
      onState (fun m₁ => { m₁ with frames := fs, objects := os }) (act m))
    (henv : ∀ m, (state (act m)).env = m.env) (hQ : ∀ m a m₁, act m = .ok a m₁ → Q a) : D.Keeps env Q act := by
  intro m m' h
  obtain ⟨frames, objects, rfl⟩ : ∃ fs os, m' = { m with frames := fs, objects := os } := ⟨_, _, h.rest⟩
  have hsame := hact m m.frames m.objects
  have hback := henv m
  rw [hact m frames objects]
  cases hm : act m with
  | ok a m₁ =>
    simp only [hm, onState, state_ok, EStateM.Result.ok.injEq, true_and] at hsame hback
    have hcells : m₁.frames = m.frames ∧ m₁.objects = m.objects := ⟨by rw [hsame], by rw [hsame]⟩
    exact .ok (hQ m a m₁ hm) (h.carry (hback.trans h.env) rfl hcells ⟨rfl, rfl⟩)
  | error e m₁ =>
    simp only [hm, onState, state_error, EStateM.Result.error.injEq, true_and] at hsame hback
    have hcells : m₁.frames = m.frames ∧ m₁.objects = m.objects := ⟨by rw [hsame], by rw [hsame]⟩
    exact .error e (h.carry (hback.trans h.env) rfl hcells ⟨rfl, rfl⟩)

/-! ## Single steps -/

theorem newRef : D.Keeps env (fun _ => True) Eval.newRef :=
  quiet (fun _ _ _ => rfl) (fun _ => rfl) fun _ _ _ _ => trivial

theorem newFunction {f : Closure} (hf : f.env.Avoids D.apart) :
    D.Keeps env (·.Avoids D.apart) (Eval.newFunction f) :=
  bind newRef fun _ _ => pure hf

theorem extend {outer : Env} {frame : Frame} (ho : outer.Avoids D.apart) (hv : Table.Avoids D.apart frame) :
    D.Keeps env (·.Avoids D.apart) (Eval.extend outer frame) := by
  intro m m' h
  obtain ⟨hnew, h₁⟩ := h.add hv
  unfold Eval.extend
  rw [h.frames]
  exact .ok (ho.cons hnew) h₁

theorem define (henv : env.Avoids D.apart) (name : String) {v : Value} (hv : v.Avoids D.apart) :
    D.Keeps env (fun _ => True) (Eval.define name v) := by
  intro m m' h
  have henv' : m'.env = m.env := by rw [h.rest]
  cases hm : m.env with
  | nil =>
    rw [Eval.define_nil hm, Eval.define_nil (henv'.trans hm)]
    exact .ok trivial h
  | cons i outer =>
    have hi : i ∈ env := by
      rw [← h.env, hm]
      exact List.mem_cons_self
    rw [Eval.define_cons hm, Eval.define_cons (henv'.trans hm)]
    exact .ok trivial (h.define (henv.not_mem hi) hv)

theorem avoids_globals : Env.Avoids D.apart Machine.globals := by
  rintro c ⟨i, hi, rfl⟩
  cases List.mem_singleton.1 hi
  exact D.globals

/-- A look into one frame of an environment that mentions nothing set apart. -/
theorem found {m m' : Machine} (h : D.Alike env m m') (name : Token) {chain : Env}
    (hchain : chain.Avoids D.apart) (d : Nat) :
    D.Ends env (·.Avoids D.apart)
      (match m.frames.getAt? chain d name.lexeme with | some v => .ok v m | none => Eval.undefined name m)
      (match m'.frames.getAt? chain d name.lexeme with | some v => .ok v m' | none => Eval.undefined name m') := by
  rw [h.getAt? hchain]
  cases hv : m.frames.getAt? chain d name.lexeme with
  | some v => exact .ok (h.avoids_getAt? hchain hv) h
  | none => exact .error _ h

theorem lookUp (henv : env.Avoids D.apart) (id : Nat) (name : Token) :
    D.Keeps env (·.Avoids D.apart) (Eval.lookUp id name) := by
  intro m m' h
  have hdistances : m'.distances = m.distances := by rw [h.rest]
  have henv' : m'.env = m.env := by rw [h.rest]
  have hhere : m.env.Avoids D.apart := h.env ▸ henv
  have hglobal (m : Machine) : m.frames.get? Machine.globals name.lexeme =
      m.frames.getAt? Machine.globals 0 name.lexeme := by
    simp only [Machine.globals, Frames.get?, Frames.getAt?, List.getElem?_cons_zero]
    split <;> simp [*]
  unfold Eval.lookUp
  rw [hdistances, henv', hglobal, hglobal]
  cases m.distances[id]? with
  | none => exact found h name avoids_globals 0
  | some d => exact found h name hhere d

theorem store {holder : Machine → Option Nat} (name : Token) {v : Value} (hv : v.Avoids D.apart)
    (hh : ∀ m m', D.Alike env m m' → holder m' = holder m ∧ ∀ i, holder m = some i → ¬ D.apart (.frame i)) :
    D.Keeps env (fun _ => True) (Eval.store holder name v) := by
  intro m m' h
  obtain ⟨hsame, hout⟩ := hh m m' h
  unfold Eval.store
  rw [hsame]
  cases hi : holder m with
  | none => exact .error _ h
  | some i => exact .ok trivial (h.define (hout i hi) hv)

theorem assign (henv : env.Avoids D.apart) (id : Nat) (name : Token) {v : Value} (hv : v.Avoids D.apart) :
    D.Keeps env (fun _ => True) (Eval.assign id name v) := by
  refine store name hv fun m m' h => ?_
  have hdistances : m'.distances = m.distances := by rw [h.rest]
  have henv' : m'.env = m.env := by rw [h.rest]
  have hhere : m.env.Avoids D.apart := h.env ▸ henv
  rw [hdistances, henv']
  cases m.distances[id]? with
  | none => exact ⟨h.holder? avoids_globals _, fun i hi => Alike.not_apart_of_holder? avoids_globals hi⟩
  | some d => exact ⟨h.holderAt? hhere d _, fun i hi => Alike.not_apart_of_holderAt? hhere hi⟩

theorem newObject {k : Class} (hk : k.Avoids D.apart) : D.Keeps env (·.Avoids D.apart) (Eval.newObject k) := by
  intro m m' h
  obtain ⟨hnew, h₁⟩ := h.newObject
  unfold Eval.newObject
  rw [h.objects]
  exact .ok (.object hnew hk) h₁

theorem setField {id : Nat} (hid : ¬ D.apart (.object id)) (name : Token) {v : Value} (hv : v.Avoids D.apart) :
    D.Keeps env (fun _ => True) (Eval.setField id name v) :=
  fun _ _ h => .ok trivial (h.setField hid hv)

/-- The frame that holds `this` is a new one. -/
theorem attach {receiver : Value} (hr : receiver.Avoids D.apart) {method : Closure} (hm : method.env.Avoids D.apart) :
    D.Keeps env (·.env.Avoids D.apart) (Eval.attach receiver method) :=
  bind (extend hm (Table.avoids_singleton "this" hr)) fun _ henv => pure henv

theorem boundMethod {receiver : Value} (hr : receiver.Avoids D.apart) {method : Closure}
    (hm : method.env.Avoids D.apart) :
    D.Keeps env (·.Avoids D.apart) (do Eval.newFunction (← Eval.attach receiver method)) :=
  bind (attach hr hm) fun _ hf => newFunction hf

theorem getProperty {id : Nat} {k : Class} (ho : (Value.object id k).Avoids D.apart) (name : Token) :
    D.Keeps env (·.Avoids D.apart) (Eval.getProperty id k name) := by
  refine get_bind fun m m' h => ?_
  rw [h.fields ho.of_object.1]
  refine ⟨rfl, ?_⟩
  cases hv : (m.fields id).get? name.lexeme with
  | some v => exact pure (h.avoids_fields ho.of_object.1 _ v hv)
  | none =>
    cases hf : k.findMethod name.lexeme with
    | some method => exact boundMethod ho (ho.of_object.2.findMethod hf)
    | none => exact fail _ _

theorem superMethod (henv : env.Avoids D.apart) (id : Nat) (keyword method : Token) :
    D.Keeps env (·.Avoids D.apart) (Eval.superMethod id keyword method) := by
  refine get_bind fun m m' h => ?_
  have hdistances : m'.distances = m.distances := by rw [h.rest]
  have henv' : m'.env = m.env := by rw [h.rest]
  have hhere : m.env.Avoids D.apart := h.env ▸ henv
  rw [hdistances, henv']
  cases m.distances[id]? with
  | none => exact ⟨rfl, fail _ _⟩
  | some d =>
    dsimp only
    rw [h.getAt? hhere, h.getAt? hhere]
    refine ⟨rfl, ?_⟩
    split
    case h_1 parent hparent =>
      split
      case h_1 id k hthis =>
        split
        case h_1 f hf =>
          have hk : parent.Avoids D.apart := h.avoids_getAt? hhere hparent
          exact boundMethod (h.avoids_getAt? hhere hthis) (hk.findMethod hf)
        case h_2 => exact fail _ _
      case h_2 => exact fail _ _
    case h_2 => exact fail _ _

/-- The methods of a new class and what the superclass mentions. -/
theorem avoids_class {parent : Option Class} (hp : ∀ p, parent = some p → p.Avoids D.apart) {outer : Env}
    (ho : outer.Avoids D.apart) (id : Nat) (label : String) (methods : List Routine) :
    Class.Avoids D.apart ⟨id, label, parent, Eval.methodTable outer methods⟩ := by
  rintro c ⟨above, name, f, hd, hg, hc⟩
  cases hd with
  | refl =>
    rw [(Eval.of_get?_methodTable hg).2] at hc
    exact ho c hc
  | up hparent hd => exact hp _ hparent c ⟨above, name, f, hd, hg, hc⟩

theorem defineClass (henv : env.Avoids D.apart) (name : Token) {parent : Option Class}
    (hp : ∀ p, parent = some p → p.Avoids D.apart) (methods : List Routine) :
    D.Keeps env (fun _ => True) (Eval.defineClass name parent methods) := by
  have houter : D.Keeps env (·.Avoids D.apart) (Eval.methodEnv parent) := by
    have hhere : ∀ m m', D.Alike env m m' → m'.env = m.env ∧ m.env.Avoids D.apart :=
      fun m m' h => ⟨by rw [h.rest], h.env ▸ henv⟩
    cases parent with
    | some p =>
      refine get_bind fun m m' h => ⟨by rw [(hhere m m' h).1], ?_⟩
      exact extend (hhere m m' h).2 (Table.avoids_singleton "super" (hp p rfl))
    | none => exact get_bind fun m m' h => ⟨by rw [(hhere m m' h).1], pure (hhere m m' h).2⟩
  rw [Eval.defineClass_eq]
  refine bind houter fun outer ho => bind newRef fun id _ => ?_
  have hclass : (Value.classDef ⟨id, name.lexeme, parent, Eval.methodTable outer methods⟩).Avoids D.apart :=
    avoids_class hp ho id name.lexeme methods
  refine store name hclass fun m m' h => ?_
  have henv' : m'.env = m.env := by rw [h.rest]
  have hhere : m.env.Avoids D.apart := h.env ▸ henv
  rw [henv']
  exact ⟨h.holder? hhere _, fun i hi => Alike.not_apart_of_holder? hhere hi⟩

theorem writeLine (s : String) : D.Keeps env (fun _ => True) (Eval.writeLine s) := by
  refine quiet (fun m fs os => ?_) (fun m => ?_) fun _ _ _ _ => trivial
  · unfold Eval.writeLine
    dsimp only
    split <;> rfl
  · unfold Eval.writeLine
    split <;> rfl

theorem flush : D.Keeps env (fun _ => True) Eval.flush := by
  refine quiet (fun m fs os => ?_) (fun m => ?_) fun _ _ _ _ => trivial
  · unfold Eval.flush
    dsimp only
    split <;> rfl
  · unfold Eval.flush
    split <;> rfl

theorem flushing {p : Eval α} (hp : D.Keeps env Q p) : D.Keeps env Q (Eval.flushing p) := by
  intro m m' h
  have hends := hp m m' h
  unfold Eval.flushing
  generalize p m = r at hends ⊢
  generalize p m' = r' at hends ⊢
  cases hends with
  | ok ha h₁ => exact bind flush (fun _ _ => pure ha) _ _ h₁
  | error e h₁ =>
    cases e with
    | failed e => exact bind flush (fun _ _ => throw _) _ _ h₁
    | exhausted => exact .error _ h₁

theorem request (path : String) : D.Keeps env (fun _ => True) (Eval.request path) :=
  quiet (fun _ _ _ => rfl) (fun _ => rfl) fun _ _ _ _ => trivial

theorem readScript (host : Host) (path : String) : D.Keeps env (fun _ => True) (Eval.readScript host path) := by
  have hcompile : ∀ (m : Machine) source, ∃ result next distances,
      m.compile source = (result, { m with nextNode := next, distances := distances }) ∧
      ∀ fs os, { m with frames := fs, objects := os }.compile source =
        (result, { m with frames := fs, objects := os, nextNode := next, distances := distances }) := by
    intro m source
    refine ⟨_, _, _, Prod.ext rfl (m.compile_snd source), fun fs os => ?_⟩
    have hrecord : m.SameRecord { m with frames := fs, objects := os } := ⟨rfl, rfl⟩
    exact hrecord.compile_eq source
  refine quiet (fun m fs os => ?_) (fun m => ?_) fun _ _ _ _ => trivial
  · unfold Eval.readScript
    cases host.read path with
    | error fault => rfl
    | ok source =>
      obtain ⟨result, next, distances, hm, hsame⟩ := hcompile m source
      dsimp only
      rw [hm, hsame]
      cases result <;> rfl
  · unfold Eval.readScript
    cases host.read path with
    | error fault => rfl
    | ok source =>
      obtain ⟨result, next, distances, hm, -⟩ := hcompile m source
      dsimp only
      rw [hm]
      cases result <;> rfl

/-- The clock is all there is. -/
theorem callNative {host : Host} (hf : host.functions = []) (paren : Token) (f : Native) (args : List Value) :
    D.Keeps env (·.Avoids D.apart) (Eval.callNative host paren f args) := by
  unfold Eval.callNative
  cases f.code with
  | clock =>
    refine quiet (fun _ _ _ => rfl) (fun _ => rfl) fun m a m₁ ha => ?_
    cases ha
    exact .of_isPlain rfl
  | host slot =>
    rw [hf]
    exact fail paren _

end Keeps
end Division

/-! ## Runs -/

/-- What a statement returned mentions nothing set apart. -/
def Flow.Avoids (S : Cell → Prop) : Flow → Prop
  | .returned v => v.Avoids S
  | _ => True

theorem Flow.Avoids.result {S : Cell → Prop} {flow : Flow} (h : flow.Avoids S) : flow.result.Avoids S := by
  cases flow with
  | returned v => exact h
  | normal => exact .of_isPlain rfl
  | broke => exact .of_isPlain rfl

/-- Runs of depth `n` do the same on machines that are alike. Where a call, a script or a program is run from does not
matter. -/
structure RunsKeep (D : Division) (host : Host) (n : Nat) : Prop where
  evaluate {env : Env} : env.Avoids D.apart → ∀ e, D.Keeps env (·.Avoids D.apart) (evaluate host n e)
  evaluateAll {env : Env} : env.Avoids D.apart → ∀ es,
    D.Keeps env (fun vs => ∀ v ∈ vs, v.Avoids D.apart) (evaluateAll host n es)
  call {f : Value} {args : List Value} : f.Avoids D.apart → (∀ v ∈ args, v.Avoids D.apart) → ∀ env paren,
    D.Keeps env (·.Avoids D.apart) (call host n paren f args)
  callClosure {f : Closure} {args : List Value} : f.env.Avoids D.apart → (∀ v ∈ args, v.Avoids D.apart) →
    ∀ env paren, D.Keeps env (·.Avoids D.apart) (callClosure host n paren f args)
  execute {env : Env} : env.Avoids D.apart → ∀ s, D.Keeps env (Flow.Avoids D.apart) (execute host n s)
  executeAll {env : Env} : env.Avoids D.apart → ∀ ss, D.Keeps env (Flow.Avoids D.apart) (executeAll host n ss)
  repeatWhile {env : Env} : env.Avoids D.apart → ∀ cond body,
    D.Keeps env (Flow.Avoids D.apart) (repeatWhile host n cond body)
  load (env : Env) (keyword : Token) (path : String) : D.Keeps env (fun _ => True) (load host n keyword path)
  interpret (env : Env) (program : List Stmt) : D.Keeps env (fun _ => True) (interpret host n program)

namespace RunsKeep

variable {D : Division} {host : Host} {n : Nat} {env : Env} (ih : RunsKeep D host n)
include ih

theorem next_evaluate (henv : env.Avoids D.apart) (e : Expr) :
    D.Keeps env (·.Avoids D.apart) (Lox.evaluate host (n + 1) e) := by
  cases e with
  | literal v =>
    refine .pure (.of_isPlain ?_)
    cases v <;> rfl
  | group e => exact ih.evaluate henv e
  | unary op right => exact .bind (ih.evaluate henv right) fun _ _ => .settled (.unaryOp _ _)
  | binary left op right =>
    exact .bind (ih.evaluate henv left) fun _ _ => .bind (ih.evaluate henv right) fun _ _ =>
      .settled (.binaryOp _ _ _)
  | logical left op right =>
    refine .bind (ih.evaluate henv left) fun v hv => ?_
    split
    · exact .pure hv
    · exact ih.evaluate henv right
  | var id name => exact .lookUp henv id name
  | assign id name value =>
    exact .bind (ih.evaluate henv value) fun v hv => .bind (.assign henv id name hv) fun _ _ => .pure hv
  | call callee paren args =>
    refine .bind (ih.evaluate henv callee) fun f hf => .bind (ih.evaluateAll henv args) fun args hargs => ?_
    cases f.callable? with
    | none => exact .fail _ _
    | some c =>
      dsimp only
      split
      · exact ih.call hf hargs env paren
      · exact .fail _ _
  | get object name =>
    refine .bind (ih.evaluate henv object) fun v hv => ?_
    cases v with
    | object id c => exact .getProperty hv name
    | _ => exact .fail _ _
  | set object name value =>
    refine .bind (ih.evaluate henv object) fun v hv => ?_
    cases v with
    | object id c =>
      exact .bind (ih.evaluate henv value) fun w hw => .bind (.setField hv.of_object.1 name hw) fun _ _ => .pure hw
    | _ => exact .fail _ _
  | thisRef id keyword => exact .lookUp henv id keyword
  | superRef id keyword method => exact .superMethod henv id keyword method

theorem next_evaluateAll (henv : env.Avoids D.apart) (es : List Expr) :
    D.Keeps env (fun vs => ∀ v ∈ vs, v.Avoids D.apart) (Lox.evaluateAll host (n + 1) es) := by
  cases es with
  | nil => exact .pure (List.forall_mem_nil _)
  | cons e rest =>
    exact .bind (ih.evaluate henv e) fun v hv => .bind (ih.evaluateAll henv rest) fun vs hvs =>
      .pure (List.forall_mem_cons.2 ⟨hv, hvs⟩)

theorem next_call (hf : host.functions = []) {f : Value} {args : List Value} (hcallee : f.Avoids D.apart)
    (hargs : ∀ v ∈ args, v.Avoids D.apart) (env : Env) (paren : Token) :
    D.Keeps env (·.Avoids D.apart) (Lox.call host (n + 1) paren f args) := by
  cases f with
  | native f => exact .callNative hf paren f args
  | function id f => exact ih.callClosure hcallee hargs env paren
  | classDef c =>
    refine .bind (.newObject hcallee) fun receiver hr => ?_
    cases hi : c.initializer? with
    | none => exact .pure hr
    | some init =>
      have hinit : init.env.Avoids D.apart := Class.Avoids.findMethod hcallee hi
      exact .bind (.attach hr hinit) fun init hinit => .bind (ih.callClosure hinit hargs env paren) fun _ _ => .pure hr
  | _ => exact .fail _ _

/-- The body runs in a new frame around that of the callee, whatever the environment of the caller. -/
theorem next_callClosure {f : Closure} {args : List Value} (hf : f.env.Avoids D.apart)
    (hargs : ∀ v ∈ args, v.Avoids D.apart) (env : Env) (paren : Token) :
    D.Keeps env (·.Avoids D.apart) (Lox.callClosure host (n + 1) paren f args) := by
  refine .bind (.extend hf (f.avoids_frame hargs)) fun inner hinner => ?_
  refine .bind (.inEnv (ih.executeAll hinner f.decl.body)) fun flow hflow => ?_
  split
  · refine .get_bind fun m m' h => ?_
    rw [h.getAt? hf]
    refine ⟨rfl, ?_⟩
    split
    case h_1 receiver hreceiver => exact .pure (h.avoids_getAt? hf hreceiver)
    case h_2 => exact .fail _ _
  · exact .pure hflow.result

theorem next_execute (henv : env.Avoids D.apart) (s : Stmt) :
    D.Keeps env (Flow.Avoids D.apart) (Lox.execute host (n + 1) s) := by
  have hhere : ∀ m m', D.Alike env m m' → m'.env = m.env ∧ m.env.Avoids D.apart :=
    fun m m' h => ⟨by rw [h.rest], h.env ▸ henv⟩
  cases s with
  | expr e => exact .bind (ih.evaluate henv e) fun _ _ => .pure trivial
  | print e => exact .bind (ih.evaluate henv e) fun _ _ => .bind (.writeLine _) fun _ _ => .pure trivial
  | varDecl name init =>
    cases init with
    | none =>
      exact .bind (.pure (Value.Avoids.of_isPlain rfl)) fun v hv => .bind (.define henv _ hv) fun _ _ => .pure trivial
    | some e => exact .bind (ih.evaluate henv e) fun v hv => .bind (.define henv _ hv) fun _ _ => .pure trivial
  | block body =>
    refine .get_bind fun m m' h => ⟨by rw [(hhere m m' h).1], ?_⟩
    exact .bind (.extend (hhere m m' h).2 Table.avoids_nil) fun inner hinner => .inEnv (ih.executeAll hinner body)
  | branch cond yes no =>
    refine .bind (ih.evaluate henv cond) fun v _ => ?_
    split
    · exact ih.execute henv yes
    · cases no with
      | none => exact .pure trivial
      | some no => exact ih.execute henv no
  | loop cond body => exact ih.repeatWhile henv cond body
  | breakLoop keyword => exact .pure trivial
  | function decl =>
    refine .get_bind fun m m' h => ⟨by rw [(hhere m m' h).1], ?_⟩
    exact .bind (.newFunction (hhere m m' h).2) fun f hf => .bind (.define henv _ hf) fun _ _ => .pure trivial
  | returnWith keyword value =>
    cases value with
    | none => exact .pure (Value.Avoids.of_isPlain rfl)
    | some e => exact .bind (ih.evaluate henv e) fun v hv => .pure hv
  | classDecl name superclass methods =>
    refine .bind (.define henv _ (.of_isPlain rfl)) fun _ _ => ?_
    have hclass : ∀ parent, (∀ p, parent = some p → p.Avoids D.apart) →
        D.Keeps env (Flow.Avoids D.apart) (do Eval.defineClass name parent methods; return .normal) :=
      fun parent hp => .bind (.defineClass henv name hp methods) fun _ _ => .pure trivial
    cases superclass with
    | none => exact .bind (.pure nofun) hclass
    | some e =>
      refine .bind (ih.evaluate henv e) fun v hv => ?_
      cases v with
      | classDef c =>
        have hc : ∀ p, some c = some p → p.Avoids D.apart := by
          intro p hp
          cases hp
          exact hv
        exact .bind (.pure hc) hclass
      | _ => exact .bind (.fail _ _) hclass
  | execute keyword path =>
    refine .bind (ih.evaluate henv path) fun v _ => ?_
    cases v with
    | string path => exact .bind (ih.load env keyword path) fun _ _ => .pure trivial
    | _ => exact .fail _ _

theorem next_executeAll (henv : env.Avoids D.apart) (ss : List Stmt) :
    D.Keeps env (Flow.Avoids D.apart) (Lox.executeAll host (n + 1) ss) := by
  cases ss with
  | nil => exact .pure trivial
  | cons s rest =>
    refine .bind (ih.execute henv s) fun flow hflow => ?_
    cases flow with
    | normal => exact ih.executeAll henv rest
    | broke => exact .pure hflow
    | returned v => exact .pure hflow

theorem next_repeatWhile (henv : env.Avoids D.apart) (cond : Expr) (body : Stmt) :
    D.Keeps env (Flow.Avoids D.apart) (Lox.repeatWhile host (n + 1) cond body) := by
  refine .bind (ih.evaluate henv cond) fun v _ => ?_
  split
  · refine .bind (ih.execute henv body) fun flow hflow => ?_
    cases flow with
    | normal => exact ih.repeatWhile henv cond body
    | broke => exact .pure trivial
    | returned v => exact .pure hflow
  · exact .pure trivial

theorem next_load (hl : ∀ load, host.loader ≠ .custom load) (env : Env) (keyword : Token) (path : String) :
    D.Keeps env (fun _ => True) (Lox.load host (n + 1) keyword path) := by
  rw [Lox.load]
  cases hloader : host.loader with
  | absent => exact .fail _ _
  | custom load => exact absurd hloader (hl load)
  | files => exact .bind (.request path) fun _ _ => .bind (.readScript host path) fun p _ => ih.interpret env p

theorem next_interpret (env : Env) (program : List Stmt) :
    D.Keeps env (fun _ => True) (Lox.interpret host (n + 1) program) :=
  .flushing (.inEnv (.discard (ih.executeAll Division.Keeps.avoids_globals program)))

end RunsKeep

theorem runsKeep {host : Host} (hl : ∀ load, host.loader ≠ .custom load) (hf : host.functions = []) (D : Division)
    (n : Nat) : RunsKeep D host n := by
  induction n with
  | zero => constructor <;> intros <;> exact .throw _
  | succ n ih =>
    exact
      { evaluate := ih.next_evaluate
        evaluateAll := ih.next_evaluateAll
        call := ih.next_call hf
        callClosure := ih.next_callClosure
        execute := ih.next_execute
        executeAll := ih.next_executeAll
        repeatWhile := ih.next_repeatWhile
        load := ih.next_load hl
        interpret := ih.next_interpret }

end Lox
