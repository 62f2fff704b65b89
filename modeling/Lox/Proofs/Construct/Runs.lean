import Lox.Proofs.Construct.Heap
import Lox.Proofs.Moments.Sessions

/-!
# Every run keeps initializers bound

The contract of programs that passed: at every moment the machine is one on which every initializer is bound, what is
called can be called, and what is bound to an object is a method of a class. Every plan keeps to it.
-/

namespace Lox
open Ending Eval

variable {terms : Terms}

/-! ## The contract -/

/-- What is run comes from a program that passed, and is run on values that are fine. -/
def Job.Admitted (terms : Terms) (m : Machine) {α : Type} : Job α → Prop
  | .expr e => e.Regular
  | .exprs es => Expr.AllRegular es
  | .call _ f args => f.Fine terms m ∧ ∀ v ∈ args, v.Fine terms m
  | .closure _ f args => f.Ready terms m.frames ∧ ∀ v ∈ args, v.Fine terms m
  | .bind receiver method => (∃ id c, receiver = .object id c) ∧ receiver.Fine terms m ∧ method.IsMethod
  | .stmt s => s.Regular ∧ s.Distinct
  | .stmts ss => Stmt.AllRegular ss ∧ Stmt.AllDistinct ss
  | .loop cond body => cond.Regular ∧ body.Regular ∧ body.Distinct
  | .script _ _ => True
  | .program p => Stmt.AllRegular p ∧ Stmt.AllDistinct p

/-- What a run gives is fine. -/
def Job.Gives (terms : Terms) (m : Machine) {α : Type} : Job α → α → Prop
  | .expr _, v | .call _ _ _, v | .closure _ _ _, v => Value.Fine terms m v
  | .exprs _, vs => ∀ v ∈ vs, Value.Fine terms m v
  | .bind _ _, f => Closure.Ready terms m.frames f
  | .stmt _, flow | .stmts _, flow | .loop _ _, flow => Value.Fine terms m (Flow.result flow)
  | .script _ _, _ | .program _, _ => True

theorem Job.Gives.follows {m m' : Machine} (hf : m.Follows terms m') {α : Type} {job : Job α} {a : α}
    (h : job.Gives terms m a) : job.Gives terms m' a := by
  cases job with
  | expr e => exact Value.Fine.follows h hf
  | exprs es => exact fun v hv => (h v hv).follows hf
  | call paren f args => exact Value.Fine.follows h hf
  | closure paren f args => exact Value.Fine.follows h hf
  | bind receiver method => exact Closure.Ready.fixes h hf.frames
  | stmt s => exact Value.Fine.follows h hf
  | stmts ss => exact Value.Fine.follows h hf
  | loop cond body => exact Value.Fine.follows h hf
  | script keyword path => trivial
  | program p => trivial

/-- The contract of programs that passed. -/
def Contract.binding (terms : Terms) : Contract where
  Good m := m.Bound terms
  Onward := Machine.Follows terms
  Pre job m := job.Admitted terms m
  Post job a m := job.Gives terms m a
  trans := .trans
  onward_same h := .same h.frames h.objects (Nat.le_of_eq h.nextRef.symm)
  good_same h hm := (hm.same h.frames h.objects (Nat.le_of_eq h.nextRef.symm)).2
  post_same h hp := hp.follows (.same h.frames h.objects (Nat.le_of_eq h.nextRef.symm))

namespace Binding

/-! ## Single steps -/

section steps

variable {m : Machine} {α : Type} {Q : α → Machine → Prop} (h : m.Bound terms)
include h

theorem keeps_pure {a : α} (hq : Q a m) : (Contract.binding terms).Keeps m Q ((pure a : Eval α) m) :=
  .ok (.refl m) h hq

theorem keeps_fail (t : Token) (fault : RuntimeFault) :
    (Contract.binding terms).Keeps m Q ((fail t fault : Eval α) m) :=
  .error (.refl m) h

theorem keeps_get {Q : Machine → Machine → Prop} (hq : Q m m) :
    (Contract.binding terms).Keeps m Q ((get : Eval Machine) m) :=
  .ok (.refl m) h hq

theorem keeps_settled {p : Eval Value} (hp : Settled p) :
    (Contract.binding terms).Keeps m (fun v m => v.Fine terms m) (p m) := by
  cases hp with
  | value hv => exact keeps_pure h (.of_isPlain hv)
  | fault => exact keeps_fail h _ _

/-- Only what is no value has changed. -/
theorem keeps_same {r : EStateM.Result Stop Machine α} (hframes : (state r).frames = m.frames)
    (hobjects : (state r).objects = m.objects) (hnext : m.nextRef ≤ (state r).nextRef)
    (hq : ∀ a m', r = .ok a m' → m.Follows terms m' → m'.Bound terms → Q a m') :
    (Contract.binding terms).Keeps m Q r := by
  obtain ⟨hf, hb⟩ := h.same hframes hobjects hnext
  cases r with
  | ok a m' => exact .ok hf hb (hq a m' rfl hf hb)
  | error e m' => exact .error hf hb

theorem keeps_lookUp (id : Nat) (name : Token) :
    (Contract.binding terms).Keeps m (fun v m => v.Fine terms m) (lookUp id name m) := by
  unfold lookUp
  dsimp only
  split
  case h_1 v hv =>
    refine .ok (.refl m) h ?_
    split at hv
    · exact h.getAt? hv
    · rw [Frames.get?_eq_holder?_bind] at hv
      obtain ⟨i, -, hi⟩ := Option.bind_eq_some_iff.1 hv
      exact h.frames hi
  case h_2 => exact keeps_fail h _ _

theorem keeps_define {Q : Unit → Machine → Prop} {name : Token} (hn : name.Free) {v : Value} (hv : v.Fine terms m)
    (hq : ∀ m', m.Follows terms m' → m'.Bound terms → Q () m') :
    (Contract.binding terms).Keeps m Q (define name.lexeme v m) := by
  unfold define
  split
  · exact .ok (.refl m) h (hq m (.refl m) h)
  · obtain ⟨hf, hb⟩ := h.define _ hn hv
    exact .ok hf hb (hq _ hf hb)

theorem keeps_store {Q : Unit → Machine → Prop} (holder : Machine → Option Nat) {name : Token} (hn : name.Free)
    {v : Value} (hv : v.Fine terms m) (hq : ∀ m', m.Follows terms m' → m'.Bound terms → Q () m') :
    (Contract.binding terms).Keeps m Q (store holder name v m) := by
  unfold store
  split
  · obtain ⟨hf, hb⟩ := h.define _ hn hv
    exact .ok hf hb (hq _ hf hb)
  · exact keeps_fail h _ _

theorem keeps_extend {Q : Env → Machine → Prop} (outer : Env) {frame : Frame}
    (hv : ∀ {name v}, frame.get? name = some v → v.Fine terms m)
    (hq : ∀ m', m.Follows terms m' → m'.Bound terms → Q (m.frames.size :: outer) m') :
    (Contract.binding terms).Keeps m Q (extend outer frame m) := by
  obtain ⟨hf, hb⟩ := h.add hv
  exact .ok hf hb (hq _ hf hb)

theorem keeps_newFunction {f : Closure} (hf : f.Ready terms m.frames) {Q : Value → Machine → Prop}
    (hq : ∀ v m', m.Follows terms m' → m'.Bound terms → v.Fine terms m' → Q v m') :
    (Contract.binding terms).Keeps m Q (newFunction f m) := by
  refine keeps_same h rfl rfl (Nat.le_succ _) fun v m' heq hfol hb => hq v m' hfol hb ?_
  cases heq
  exact ⟨hf, trivial⟩

theorem keeps_newObject {c : Class} (hc : c.Known terms m) {Q : Value → Machine → Prop}
    (hq : ∀ m', m.Follows terms m' → m'.Bound terms → (Value.object m.objects.size c).Fine terms m' →
      Q (.object m.objects.size c) m') :
    (Contract.binding terms).Keeps m Q (newObject c m) := by
  obtain ⟨hf, hb⟩ := h.newObject
  have hpresent : m.objects.size < (m.objects.push []).size := by simp
  exact .ok hf hb (hq _ hf hb ⟨hc.follows hf, hpresent⟩)

/-- The new frame is where the receiver is found from then on. -/
theorem keeps_attach {receiver : Value} (hr : receiver.Fine terms m) {method : Closure} (hm : method.IsMethod)
    (hborn : ∀ f m', attach receiver method m = .ok f m' → terms.born f receiver) :
    (Contract.binding terms).Keeps m (fun f m => f.Ready terms m.frames) (attach receiver method m) := by
  have hframe : ∀ {name v}, Table.get? [("this", receiver)] name = some v → v.Fine terms m := by
    intro name v hv
    obtain ⟨-, rfl⟩ : "this" = name ∧ receiver = v := by simpa [Table.get?] using hv
    exact hr
  obtain ⟨hf, hb⟩ := h.add hframe
  refine .ok hf hb ⟨hm.apt, fun _ => ⟨m.frames.size, method.env, receiver, rfl, Nat.ne_of_gt h.size, ?_, hborn _ _ rfl⟩⟩
  rw [Frames.read_add, if_pos rfl]
  rfl

theorem keeps_setField (id : Nat) (name : Token) {v : Value} (hv : v.Fine terms m) {Q : Unit → Machine → Prop}
    (hq : ∀ m', m.Follows terms m' → m'.Bound terms → Q () m') :
    (Contract.binding terms).Keeps m Q (setField id name v m) := by
  obtain ⟨hf, hb⟩ := h.setField id name.lexeme hv
  exact .ok hf hb (hq _ hf hb)

theorem keeps_defineClass {name : Token} (hn : name.Free) {parent : Option Class}
    (hp : ∀ c, parent = some c → c.Known terms m) {methods : List Routine} (hm : ∀ r ∈ methods, r.Apt)
    {Q : Unit → Machine → Prop} (hq : ∀ m', m.Follows terms m' → m'.Bound terms → Q () m') :
    (Contract.binding terms).Keeps m Q (defineClass name parent methods m) := by
  have henv : (Contract.binding terms).Keeps m (fun _ _ => True) (methodEnv parent m) := by
    cases parent with
    | none => exact keeps_pure h trivial
    | some parent =>
      refine keeps_extend h _ (fun {key v} hv => ?_) fun _ _ _ => trivial
      obtain ⟨-, rfl⟩ : "super" = key ∧ Value.classDef parent = v := by simpa [Table.get?] using hv
      exact ⟨hp parent rfl, trivial⟩
  rw [defineClass_eq]
  refine .bind henv fun env m₁ _ hf₁ h₁ _ => ?_
  have hp₁ : ∀ c, parent = some c → c.Known terms m₁ := fun c hc => (hp c hc).follows hf₁
  refine .bind (keeps_same h₁ (r := newRef m₁) rfl rfl (Nat.le_succ _) fun _ _ _ _ _ => trivial)
    fun ref m₂ href hf₂ h₂ _ => ?_
  cases href
  have hknown : (⟨m₁.nextRef, name.lexeme, parent, methodTable env methods⟩ : Class).Known terms
      { m₁ with nextRef := m₁.nextRef + 1 } :=
    ⟨.declared (fun c hc => (hp c hc).apt) env hm, fun ht => .next fun c hc => (hp₁ c hc).ordered ht⟩
  refine keeps_store h₂ _ hn ⟨hknown, trivial⟩ fun m₃ hf₃ h₃ => ?_
  exact hq m₃ (hf₁.trans (hf₂.trans hf₃)) h₃

theorem keeps_writeLine (text : String) {Q : Unit → Machine → Prop}
    (hq : ∀ m', m.Follows terms m' → m'.Bound terms → Q () m') :
    (Contract.binding terms).Keeps m Q (writeLine text m) := by
  have hsame : m.SameHeap (state (writeLine text m)) := by
    unfold writeLine
    split <;> exact ⟨rfl, rfl, rfl⟩
  exact keeps_same h hsame.frames hsame.objects (Nat.le_of_eq hsame.nextRef.symm) fun _ m' _ hf hb => hq m' hf hb

theorem keeps_callNative {host : Host} (hh : host.Sincere) (paren : Token) (f : Native) {args : List Value}
    (ha : ∀ v ∈ args, v.Fine terms m) :
    (Contract.binding terms).Keeps m (fun v m => v.Fine terms m) (callNative host paren f args m) := by
  unfold callNative
  split
  · exact keeps_same h rfl rfl (Nat.le_refl _) fun v m' heq _ _ => by
      cases heq
      exact .of_isPlain rfl
  · split
    · exact keeps_fail h _ _
    case h_2 g hslot =>
      split
      case h_1 v hv =>
        have hmem := List.mem_of_getElem? hslot
        refine .ok (.refl m) h ⟨.of_offers h ha (hh.functions g hmem m args v hv), ?_⟩
        rcases hh.given g hmem m args v hv with harg | hpresent
        · exact (ha v harg).present
        · exact hpresent
      case h_2 => exact keeps_fail h _ _

theorem keeps_readScript (host : Host) (path : String) :
    (Contract.binding terms).Keeps m (fun p _ => Stmt.AllRegular p ∧ Stmt.AllDistinct p) (readScript host path m) := by
  unfold readScript
  split
  · exact .error (.refl m) h
  · split
    case h_1 hc =>
      obtain ⟨hf, hb⟩ := h.compile hc
      exact .error hf hb
    case h_2 p warnings m₁ hc =>
      obtain ⟨hf, hb⟩ := h.compile hc
      obtain ⟨hf', hb'⟩ : m₁.Follows terms (m₁.queueWarnings warnings) ∧ (m₁.queueWarnings warnings).Bound terms :=
        hb.same rfl rfl (Nat.le_refl _)
      exact .ok (hf.trans hf') hb' (Stmt.apt_of_compile hc)

theorem keeps_custom {host : Host} (hh : host.Sincere) (ht : terms.ordered → host.Steady)
    {load : String → Machine → Except Error Unit × Machine}
    (hl : host.loader = .custom load) (path : String) {Q : Unit → Machine → Prop} (hq : ∀ m', Q () m') :
    (Contract.binding terms).Keeps m Q
      (match load path m with
        | (.ok (), m) => .ok () m
        | (.error e, m) => .error (.failed e) m) := by
  obtain ⟨hf, hb⟩ := h.onlyGlobals (hh.loader load hl path m) (hh.loaded load hl path m) fun ho => ht ho load hl path m
  split
  case h_1 heq =>
    rw [heq] at hf hb
    exact .ok hf hb (hq _)
  case h_2 heq =>
    rw [heq] at hf hb
    exact .error hf hb

end steps

/-! ## Plans -/

section plans

variable {m : Machine}

/-- A method bound to an object is a function that can be called. -/
theorem sound_bound {id : Nat} {c : Class} (ho : (Value.object id c).Fine terms m) {method : Closure}
    (hm : method.IsMethod) :
    (Plan.bound (.object id c) method).Sound (.binding terms) (fun v m => v.Fine terms m) m :=
  ⟨⟨⟨id, c, rfl⟩, ho, hm⟩, fun _ _ _ h₁ hready => keeps_newFunction h₁ hready fun _ _ _ _ hv => hv⟩

variable (h : m.Bound terms)
include h

theorem sound_value {v : Value} (hv : v.Fine terms m) :
    (Plan.last (pure v)).Sound (.binding terms) (fun v m => v.Fine terms m) m :=
  keeps_pure h hv

theorem sound_fail {α : Type} {Q : α → Machine → Prop} (t : Token) (fault : RuntimeFault) :
    (Plan.last (fail t fault)).Sound (.binding terms) Q m :=
  keeps_fail h t fault

theorem sound_property {id : Nat} {c : Class} (ho : (Value.object id c).Fine terms m) (name : Token) :
    (Plan.property id c name).Sound (.binding terms) (fun v m => v.Fine terms m) m := by
  refine keeps_get h ?_
  dsimp only
  cases hfield : (m.fields id).get? name.lexeme with
  | some v => exact sound_value h (h.fields hfield)
  | none =>
    dsimp only
    cases hmethod : c.findMethod name.lexeme with
    | some method => exact sound_bound ho (ho.rooted.apt name.lexeme method hmethod).1
    | none => exact sound_fail h _ _

theorem sound_superMethod (id : Nat) (keyword method : Token) :
    (Plan.superMethod id keyword method).Sound (.binding terms) (fun v m => v.Fine terms m) m := by
  refine keeps_get h ?_
  dsimp only
  cases m.distances[id]? with
  | none => exact sound_fail h _ _
  | some distance =>
    dsimp only
    split
    case h_1 parent hparent =>
      split
      case h_1 id c hthis =>
        cases hf : parent.findMethod method.lexeme with
        | some f => exact sound_bound (h.getAt? hthis) ((h.getAt? hparent).rooted.apt method.lexeme f hf).1
        | none => exact sound_fail h _ _
      case h_2 => exact sound_fail h _ _
    case h_2 => exact sound_fail h _ _

theorem sound_expr {e : Expr} (he : e.Regular) :
    (Plan.expr e).Sound (.binding terms) (fun v m => v.Fine terms m) m := by
  cases e with
  | literal v => exact sound_value h (.of_isPlain (by cases v <;> rfl))
  | group e => exact ⟨he, fun _ _ _ _ hv => hv⟩
  | unary op right => exact ⟨he.2, fun v m₁ _ h₁ _ => keeps_settled h₁ (.unaryOp op v)⟩
  | binary left op right =>
    exact ⟨he.2.1, fun v m₁ _ h₁ _ => ⟨he.2.2, fun w m₂ _ h₂ _ => keeps_settled h₂ (.binaryOp op v w)⟩⟩
  | logical left op right =>
    refine ⟨he.1, fun v m₁ _ h₁ hv => ?_⟩
    dsimp only
    cases settles op v with
    | true => exact sound_value h₁ hv
    | false => exact ⟨he.2, fun _ _ _ _ hw => hw⟩
  | var id name => exact keeps_lookUp h id name
  | assign id name value =>
    refine ⟨he.2, fun v m₁ _ h₁ (hv : v.Fine terms m₁) => ?_⟩
    exact keeps_store h₁ _ he.1 hv fun m₂ hf₂ h₂ => sound_value h₂ (hv.follows hf₂)
  | call callee paren args =>
    refine ⟨he.1, fun f m₁ _ h₁ (hf : f.Fine terms m₁) => ⟨he.2, fun args m₂ hf₂ h₂ hargs => ?_⟩⟩
    dsimp only
    cases f.callable? with
    | none => exact sound_fail h₂ _ _
    | some c =>
      dsimp only
      split
      · exact ⟨⟨hf.follows hf₂, hargs⟩, fun _ _ _ _ hv => hv⟩
      · exact sound_fail h₂ _ _
  | get object name =>
    refine ⟨he, fun v m₁ _ h₁ hv => ?_⟩
    cases v with
    | object id c => exact sound_property h₁ hv name
    | _ => exact sound_fail h₁ _ _
  | set object name value =>
    refine ⟨he.1, fun v m₁ _ h₁ _ => ?_⟩
    cases v with
    | object id c =>
      refine ⟨he.2, fun w m₂ _ h₂ (hw : w.Fine terms m₂) => ?_⟩
      exact keeps_setField h₂ id name hw fun m₃ hf₃ h₃ => sound_value h₃ (hw.follows hf₃)
    | _ => exact sound_fail h₁ _ _
  | thisRef id keyword => exact keeps_lookUp h id keyword
  | superRef id keyword method => exact sound_superMethod h id keyword method

theorem sound_exprs {es : List Expr} (hes : Expr.AllRegular es) {host : Host} :
    ((Job.exprs es).plan host).Sound (.binding terms) (fun vs m => ∀ v ∈ vs, v.Fine terms m) m := by
  cases es with
  | nil => exact keeps_pure h (List.forall_mem_nil _)
  | cons e rest =>
    refine ⟨hes.1, fun v m₁ _ h₁ (hv : v.Fine terms m₁) => ⟨hes.2, fun vs m₂ hf₂ h₂ hvs => ?_⟩⟩
    exact keeps_pure h₂ (List.forall_mem_cons.2 ⟨hv.follows hf₂, hvs⟩)

theorem sound_call {host : Host} (hh : host.Sincere) (paren : Token) {f : Value} (hf : f.Fine terms m)
    {args : List Value} (ha : ∀ v ∈ args, v.Fine terms m) :
    (Plan.call host paren f args).Sound (.binding terms) (fun v m => v.Fine terms m) m := by
  cases f with
  | native f => exact keeps_callNative h hh paren f ha
  | function id f => exact ⟨⟨hf.rooted, ha⟩, fun _ _ _ _ hv => hv⟩
  | classDef c =>
    refine keeps_newObject h hf.rooted fun m₁ hf₁ h₁ ho => ?_
    dsimp only
    cases hi : c.initializer? with
    | none => exact sound_value h₁ ho
    | some init =>
      refine ⟨⟨⟨_, c, rfl⟩, ho, (hf.rooted.apt initName init hi).1⟩, fun init m₂ hf₂ h₂ hready => ?_⟩
      refine ⟨⟨hready, fun v hv => (ha v hv).follows (hf₁.trans hf₂)⟩, fun _ m₃ hf₃ h₃ _ => ?_⟩
      exact sound_value h₃ (ho.follows (hf₂.trans hf₃))
  | _ => exact sound_fail h _ _

theorem keeps_result (paren : Token) (f : Closure) {flow : Flow} (hflow : flow.result.Fine terms m) :
    (Contract.binding terms).Keeps m (fun v m => v.Fine terms m) (Plan.result paren f flow m) := by
  unfold Plan.result
  cases f.isInitializer with
  | false => exact keeps_pure h hflow
  | true =>
    rw [if_pos rfl, bind_ok get_apply]
    cases hr : m.frames.getAt? f.env 0 "this" with
    | some receiver => exact keeps_pure h (h.getAt? hr)
    | none => exact keeps_fail h _ _

theorem sound_closure (paren : Token) {f : Closure} (hf : f.Ready terms m.frames) {args : List Value}
    (ha : ∀ v ∈ args, v.Fine terms m) :
    (Plan.closure paren f args).Sound (.binding terms) (fun v m => v.Fine terms m) m := by
  refine keeps_extend h _ (fun hv => ha _ (Closure.mem_of_get?_frame hv)) fun m₁ _ h₁ => ?_
  refine ⟨⟨(Routine.regular_iff.1 hf.apt.regular).2.2, (Routine.distinct_iff.1 hf.apt.distinct).2⟩, ?_⟩
  exact fun flow m₂ _ h₂ hflow => keeps_result h₂ paren f hflow

/-- A statement that is through with nothing to return. -/
theorem sound_normal :
    (Plan.last (pure Flow.normal)).Sound (.binding terms) (fun flow m => flow.result.Fine terms m) m :=
  keeps_pure h (.of_isPlain rfl)

theorem sound_stmt {s : Stmt} (hr : s.Regular) (hd : s.Distinct) :
    (Plan.stmt s).Sound (.binding terms) (fun flow m => flow.result.Fine terms m) m := by
  cases s with
  | expr e => exact ⟨hr, fun _ _ _ h₁ _ => sound_normal h₁⟩
  | print e => exact ⟨hr, fun v m₁ _ h₁ _ => keeps_writeLine h₁ v.text fun _ _ h₂ => sound_normal h₂⟩
  | varDecl name init =>
    cases init with
    | none => exact keeps_define h hr.1 (.of_isPlain rfl) fun _ _ h₁ => sound_normal h₁
    | some e => exact ⟨hr.2, fun v m₁ _ h₁ hv => keeps_define h₁ hr.1 hv fun _ _ h₂ => sound_normal h₂⟩
  | block body =>
    refine keeps_get h (keeps_extend h _ nofun fun m₁ _ h₁ => ⟨⟨hr, hd⟩, fun flow m₂ _ h₂ hflow => ?_⟩)
    exact keeps_pure h₂ hflow
  | branch cond yes no =>
    cases no with
    | none =>
      refine ⟨hr.1, fun v m₁ _ h₁ _ => ?_⟩
      dsimp only
      cases v.truthy with
      | true => exact ⟨⟨hr.2, hd⟩, fun _ _ _ _ hflow => hflow⟩
      | false => exact sound_normal h₁
    | some no =>
      refine ⟨hr.1, fun v m₁ _ h₁ _ => ?_⟩
      dsimp only
      cases v.truthy with
      | true => exact ⟨⟨hr.2.1, hd.1⟩, fun _ _ _ _ hflow => hflow⟩
      | false => exact ⟨⟨hr.2.2, hd.2⟩, fun _ _ _ _ hflow => hflow⟩
  | loop cond body => exact ⟨⟨hr.1, hr.2, hd⟩, fun _ _ _ _ hflow => hflow⟩
  | breakLoop keyword => exact keeps_pure h (.of_isPlain rfl)
  | function decl =>
    have hready : (⟨decl, m.env, false⟩ : Closure).Ready terms m.frames := ⟨⟨hr, hd⟩, nofun⟩
    refine keeps_get h (keeps_newFunction h hready fun f m₁ _ h₁ hf => ?_)
    exact keeps_define h₁ (Routine.regular_iff.1 hr).1 hf fun _ _ h₂ => sound_normal h₂
  | returnWith keyword value =>
    cases value with
    | none => exact keeps_pure h (.of_isPlain rfl)
    | some e => exact ⟨hr, fun v m₁ _ h₁ hv => keeps_pure h₁ hv⟩
  | classDecl name superclass methods =>
    obtain ⟨hname, hsuper, hmethods⟩ := hr
    have hapt : ∀ r ∈ methods, r.Apt := fun r hmem =>
      ⟨Routine.regular_of_mem hmethods hmem, Routine.distinct_of_mem hd hmem⟩
    have hmade : ∀ {m₁ : Machine} (parent : Option Class), m₁.Bound terms → (∀ c, parent = some c → c.Known terms m₁) →
        (Plan.step (defineClass name parent methods) fun _ => .last (pure Flow.normal)).Sound (.binding terms)
          (fun flow m => flow.result.Fine terms m) m₁ :=
      fun parent h₁ hp => keeps_defineClass h₁ hname hp hapt fun _ _ h₂ => sound_normal h₂
    refine keeps_define h hname (.of_isPlain rfl) fun m₁ _ h₁ => ?_
    cases superclass with
    | none => exact hmade none h₁ nofun
    | some e =>
      refine ⟨hsuper, fun v m₂ _ h₂ hv => ?_⟩
      cases v with
      | classDef c =>
        refine hmade (some c) h₂ ?_
        rintro _ ⟨⟩
        exact hv.rooted
      | _ => exact sound_fail h₂ _ _
  | execute keyword path =>
    refine ⟨hr, fun v m₁ _ h₁ _ => ?_⟩
    cases v with
    | string path => exact ⟨trivial, fun _ _ _ h₂ _ => sound_normal h₂⟩
    | _ => exact sound_fail h₁ _ _

theorem sound_stmts {ss : List Stmt} (hr : Stmt.AllRegular ss) (hd : Stmt.AllDistinct ss) {host : Host} :
    ((Job.stmts ss).plan host).Sound (.binding terms) (fun flow m => flow.result.Fine terms m) m := by
  cases ss with
  | nil => exact sound_normal h
  | cons s rest =>
    refine ⟨⟨hr.1, hd.1⟩, fun flow m₁ _ h₁ hflow => ?_⟩
    cases flow with
    | normal => exact ⟨⟨hr.2, hd.2⟩, fun _ _ _ _ hflow => hflow⟩
    | broke => exact keeps_pure h₁ hflow
    | returned v => exact keeps_pure h₁ hflow

omit h in
theorem sound_loop {cond : Expr} {body : Stmt} (hc : cond.Regular) (hr : body.Regular) (hd : body.Distinct) :
    (Plan.loop cond body).Sound (.binding terms) (fun flow m => flow.result.Fine terms m) m := by
  refine ⟨hc, fun v m₁ _ h₁ _ => ?_⟩
  dsimp only
  cases v.truthy with
  | false => exact sound_normal h₁
  | true =>
    refine ⟨⟨hr, hd⟩, fun flow m₂ _ h₂ hflow => ?_⟩
    cases flow with
    | normal => exact ⟨⟨hc, hr, hd⟩, fun _ _ _ _ hflow => hflow⟩
    | broke => exact sound_normal h₂
    | returned v => exact keeps_pure h₂ hflow

theorem sound_script {host : Host} (hh : host.Sincere) (ht : terms.ordered → host.Steady) (keyword : Token)
    (path : String) :
    (Plan.script host keyword path).Sound (.binding terms) (fun _ _ => True) m := by
  unfold Plan.script
  cases hl : host.loader with
  | absent => exact sound_fail h _ _
  | custom load => exact keeps_custom h hh ht hl path fun _ => trivial
  | files =>
    refine keeps_same h rfl rfl (Nat.le_refl _) fun _ m₁ _ _ h₁ => ?_
    exact (keeps_readScript h₁ host path).imp fun p m₂ _ _ hp => ⟨hp, fun _ _ _ _ _ => trivial⟩

end plans

end Binding

/-! ## All runs -/

/-- Whatever was bound in these moments counts as such. -/
def Moment.Binds (S : Moment → Prop) (f : Closure) (receiver : Value) : Prop :=
  ∃ host method depth m m', S ⟨host, .bind receiver method, depth, m⟩ ∧ attach receiver method m = .ok f m'

open Binding in
theorem Contract.binding_honored {S : Moment → Prop} (hS : ∀ {μ ν}, S μ → μ.Part ν → S ν)
    (hh : ∀ {μ}, S μ → μ.host.Sincere) {ordered : Prop} (ho : ∀ {μ}, S μ → ordered → μ.host.Steady) :
    (Contract.binding ⟨Moment.Binds S, ordered⟩).Honored S where
  closed := hS
  sound {μ} hμ h hp := by
    obtain ⟨host, job, n, m⟩ := μ
    cases job with
    | expr e => exact sound_expr h hp
    | exprs es => exact sound_exprs h hp
    | call paren f args => exact sound_call h (hh hμ) paren hp.1 hp.2
    | closure paren f args => exact sound_closure h paren hp.1 hp.2
    | bind receiver method => exact keeps_attach h hp.2.1 hp.2.2 fun _ _ ha => ⟨host, method, n, m, _, hμ, ha⟩
    | stmt s => exact sound_stmt h hp.1 hp.2
    | stmts ss => exact sound_stmts h hp.1 hp.2
    | loop cond body => exact sound_loop hp.1 hp.2.1 hp.2.2
    | script keyword path => exact sound_script h (hh hμ) (ho hμ) keyword path
    | program p => exact ⟨⟨hp, fun _ _ _ h₁ _ => keeps_pure h₁ trivial⟩, fun _ _ _ _ _ => trivial⟩

end Lox
