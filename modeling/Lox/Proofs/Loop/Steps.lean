import Lox.Proofs.Loop.Machines
import Lox.Proofs.Match.Steps
import Lox.Proofs.Restore

/-!
# Single steps on twin machines

From twin machines, a step with like operands ends in the same way on both: in like values, or in the same error, and
again in twin machines, in a world that may have grown.
-/

namespace Lox

/-! ## Computations -/

namespace Eval

variable {α β : Type}

inductive TwinEnds (R : Record) (W : World) (σ : Shape) (A : World → α → α → Prop) :
    EStateM.Result Stop Machine α → EStateM.Result Stop Machine α → Prop
  | ok {W' : World} {a a' : α} {m m' : Machine} : W.Grows W' → A W' a a' → m.Twin R W' σ m' →
      TwinEnds R W σ A (.ok a m) (.ok a' m')
  | failed {W' : World} (e : Error) {m m' : Machine} : W.Grows W' → m.Twin R W' σ m' →
      TwinEnds R W σ A (.error (.failed e) m) (.error (.failed e) m')
  | exhausted {m m' : Machine} : TwinEnds R W σ A (.error .exhausted m) (.error .exhausted m')

/-- From twin machines, two computations end alike, with results that go together as `A` says. -/
def Twin (R : Record) (W : World) (σ : Shape) (A : World → α → α → Prop) (p p' : Eval α) : Prop :=
  ∀ m m', m.Twin R W σ m' → TwinEnds R W σ A (p m) (p' m')

theorem TwinEnds.of_grows {R : Record} {W W' : World} {σ : Shape} {A : World → α → α → Prop}
    {r r' : EStateM.Result Stop Machine α} (hW : W.Grows W') (h : TwinEnds R W' σ A r r') :
    TwinEnds R W σ A r r' := by
  cases h with
  | ok hW₁ ha hm => exact .ok (hW.trans hW₁) ha hm
  | failed e hW₁ hm => exact .failed e (hW.trans hW₁) hm
  | exhausted => exact .exhausted

namespace Twin

variable {R : Record} {W : World} {σ τ : Shape} {A : World → α → α → Prop} {B : World → β → β → Prop}

theorem pure {a a' : α} (h : A W a a') : Twin R W σ A (Pure.pure a) (Pure.pure a') :=
  fun _ _ hm => .ok (.refl W) h hm

theorem exhausted : Twin R W σ A (throw .exhausted) (throw .exhausted) := fun _ _ _ => .exhausted

theorem get : Twin R W σ (fun W => Machine.Twin R W σ) MonadState.get MonadState.get :=
  fun _ _ hm => .ok (.refl W) hm hm

theorem fail (t : Token) (fault : RuntimeFault) : Twin R W σ A (Eval.fail t fault) (Eval.fail t fault) :=
  fun _ _ hm => .failed _ (.refl W) hm

theorem bind {p p' : Eval α} {f f' : α → Eval β} (hp : Twin R W σ A p p')
    (hf : ∀ {W'} (_ : W.Grows W') a a', A W' a a' → Twin R W' σ B (f a) (f' a')) :
    Twin R W σ B (p >>= f) (p' >>= f') := by
  intro m m' hm
  have h := hp m m' hm
  show TwinEnds R W σ B (EStateM.bind p f m) (EStateM.bind p' f' m')
  unfold EStateM.bind
  generalize p m = r at h ⊢
  generalize p' m' = r' at h ⊢
  cases h with
  | ok hW ha hm₁ => exact (hf hW _ _ ha _ _ hm₁).of_grows hW
  | failed e hW hm₁ => exact .failed e hW hm₁
  | exhausted => exact .exhausted

theorem ite {c : Prop} [Decidable c] {p p' q q' : Eval α} (hp : Twin R W σ A p p')
    (hq : Twin R W σ A q q') : Twin R W σ A (if c then p else q) (if c then p' else q') := by
  split
  · exact hp
  · exact hq

theorem discard {p p' : Eval α} (hp : Twin R W σ A p p') :
    Twin R W σ (fun _ => Eq) (Functor.discard p) (Functor.discard p') :=
  bind hp fun _ _ _ _ => pure rfl

theorem inEnv {env env' : Env} (henv : W.Spans τ env env') {p p' : Eval α} (hp : Twin R W τ A p p') :
    Twin R W σ A (Eval.inEnv env p) (Eval.inEnv env' p') := by
  intro m m' hm
  have h := hp _ _ (hm.setEnv henv)
  unfold Eval.inEnv
  dsimp only
  generalize p { m with env := env } = r at h ⊢
  generalize p' { m' with env := env' } = r' at h ⊢
  cases h with
  | ok hW ha hm₁ => exact .ok hW ha (hm₁.setEnv (hm.env.mono hW))
  | failed e hW hm₁ => exact .failed e hW (hm₁.setEnv (hm.env.mono hW))
  | exhausted => exact .exhausted

/-! ## Output -/

theorem writeLine (s : String) : Twin R W σ (fun _ => Eq) (Eval.writeLine s) (Eval.writeLine s) := by
  intro m m' hm
  unfold Eval.writeLine
  rw [hm.output]
  obtain ⟨reason, sink⟩ := m.output.write (s ++ "\n")
  cases reason with
  | none => exact .ok (.refl W) rfl { hm with output := rfl }
  | some reason => exact .failed _ (.refl W) { hm with output := rfl }

theorem flush : Twin R W σ (fun _ => Eq) Eval.flush Eval.flush := by
  intro m m' hm
  unfold Eval.flush
  rw [hm.output]
  obtain ⟨reason, sink⟩ := m.output.flush
  cases reason with
  | none => exact .ok (.refl W) rfl { hm with output := rfl }
  | some reason => exact .failed _ (.refl W) { hm with output := rfl }

theorem flushing {p p' : Eval α} (hA : ∀ {W W' : World} {a a' : α}, W.Grows W' → A W a a' → A W' a a')
    (hp : Twin R W σ A p p') : Twin R W σ A (Eval.flushing p) (Eval.flushing p') := by
  intro m m' hm
  have h := hp m m' hm
  unfold Eval.flushing
  generalize p m = r at h ⊢
  generalize p' m' = r' at h ⊢
  cases h with
  | ok hW ha hm₁ => exact (bind flush (fun hW₁ _ _ _ => pure (hA hW₁ ha)) _ _ hm₁).of_grows hW
  | failed e hW hm₁ => exact (bind flush (fun _ _ _ _ _ _ hm₂ => .failed e (.refl _) hm₂) _ _ hm₁).of_grows hW
  | exhausted => exact .exhausted

/-! ## Variables -/

theorem extend {outer outer' : Env} (ho : W.Spans τ outer outer') {frame frame' : Frame}
    (hf : frame.Agree (Value.Twin R W) frame') :
    Twin R W σ (fun W => W.Spans (.both :: τ)) (Eval.extend outer frame) (Eval.extend outer' frame') := by
  intro m m' hm
  have hW := W.grows_pair m.frames.size m'.frames.size
  exact .ok hW (.both (.inr ⟨rfl, rfl⟩) (ho.mono hW)) (hm.setFrames hW (hm.frames.add hf))

theorem define (hσ : σ.Solid) (name : String) {v v' : Value} (hv : v.Twin R W v') :
    Twin R W σ (fun _ => Eq) (Eval.define name v) (Eval.define name v') := by
  intro m m' hm
  rcases hm.env.head hσ with ⟨he, he'⟩ | ⟨i, j, outer, outer', he, he', hl⟩
  · rw [Eval.define_nil he, Eval.define_nil he']
    exact .ok (.refl W) rfl hm
  · rw [Eval.define_cons he, Eval.define_cons he']
    exact .ok (.refl W) rfl (hm.setFrames (.refl W) (hm.frames.define hl name hv))

/-- A variable that is found or not. -/
theorem found (t : Token) {m m' : Machine} (hm : m.Twin R W σ m') {o o' : Option Value} :
    Option.Rel (Value.Twin R W) o o' → TwinEnds R W σ (Value.Twin R)
      (match o with | some v => .ok v m | none => Eval.undefined t m)
      (match o' with | some v => .ok v m' | none => Eval.undefined t m')
  | .some hv => .ok (.refl W) hv hm
  | .none => fail t _ m m' hm

theorem lookUp {i j : Nat} (hij : R.Names σ i j) (t : Token) :
    Twin R W σ (Value.Twin R) (Eval.lookUp i t) (Eval.lookUp j t) := by
  intro m m' hm
  have hd := hm.names hij
  unfold Eval.lookUp
  dsimp only
  generalize m.distances[i]? = o at hd ⊢
  generalize m'.distances[j]? = o' at hd ⊢
  cases hd with
  | none => exact found t hm (hm.frames.get?_globals _)
  | some hd => exact found t hm (hm.frames.getAt? hm.env hd _)

theorem store {holder holder' : Machine → Option Nat}
    (hh : ∀ m m', m.Twin R W σ m' → Option.Rel W.link (holder m) (holder' m')) (t : Token) {v v' : Value}
    (hv : v.Twin R W v') : Twin R W σ (fun _ => Eq) (Eval.store holder t v) (Eval.store holder' t v') := by
  intro m m' hm
  have hl := hh m m' hm
  unfold Eval.store
  generalize holder m = o at hl ⊢
  generalize holder' m' = o' at hl ⊢
  cases hl with
  | some hl => exact .ok (.refl W) rfl (hm.setFrames (.refl W) (hm.frames.define hl _ hv))
  | none => exact fail t _ m m' hm

theorem assign {i j : Nat} (hij : R.Names σ i j) (t : Token) {v v' : Value} (hv : v.Twin R W v') :
    Twin R W σ (fun _ => Eq) (Eval.assign i t v) (Eval.assign j t v') := by
  refine store (fun m m' hm => ?_) t hv
  have hd := hm.names hij
  generalize m.distances[i]? = o at hd ⊢
  generalize m'.distances[j]? = o' at hd ⊢
  cases hd with
  | none => exact hm.frames.holder? hm.frames.spans_globals _
  | some hd => exact hm.frames.holderAt? hm.env hd _

/-! ## Functions, classes and objects -/

theorem newRef : Twin R W σ (fun _ => Eq) Eval.newRef Eval.newRef :=
  fun _ _ hm => .ok (.refl W) hm.nextRef.symm { hm with nextRef := congrArg (· + 1) hm.nextRef }

theorem newFunction {f f' : Closure} (hf : f.Twin R W [] f') :
    Twin R W σ (Value.Twin R) (Eval.newFunction f) (Eval.newFunction f') := by
  refine bind newRef fun hW ref ref' hr => ?_
  subst hr
  exact pure (.function ref (hf.mono hW))

theorem newObject {c c' : Class} (hc : c.Twin R W c') :
    Twin R W σ (Value.Twin R) (Eval.newObject c) (Eval.newObject c') := by
  intro m m' hm
  unfold Eval.newObject
  rw [hm.objects]
  exact .ok (.refl W) (.object _ hc) hm.newObject

theorem setField (id : Nat) (t : Token) {v v' : Value} (hv : v.Twin R W v') :
    Twin R W σ (fun _ => Eq) (Eval.setField id t v) (Eval.setField id t v') :=
  fun _ _ hm => .ok (.refl W) rfl (hm.setField id _ hv)

/-- The frame of the receiver is what the environment of a method still lacked. -/
theorem attach {receiver receiver' : Value} (hv : receiver.Twin R W receiver') {f f' : Closure}
    (hf : f.Twin R W [.both] f') :
    Twin R W σ (fun W => Closure.Twin R W []) (Eval.attach receiver f) (Eval.attach receiver' f') := by
  obtain ⟨τ, henv, hτ, hdecl⟩ := hf.place
  exact bind (extend henv (.single "this" hv)) fun _ _ _ he =>
    pure ⟨⟨.both :: τ, he, hτ, hdecl⟩, hf.isInitializer⟩

/-- A method that is found, and bound to a receiver, or not. -/
theorem method {receiver receiver' : Value} (hv : receiver.Twin R W receiver') (t : Token)
    {o o' : Option Closure} : Option.Rel (Closure.Twin R W [.both]) o o' →
    Twin R W σ (Value.Twin R)
      (match o with
        | some f => do Eval.newFunction (← Eval.attach receiver f)
        | none => Eval.fail t (.undefinedProperty t.lexeme))
      (match o' with
        | some f => do Eval.newFunction (← Eval.attach receiver' f)
        | none => Eval.fail t (.undefinedProperty t.lexeme))
  | .some hf => bind (attach hv hf) fun _ _ _ hg => newFunction hg
  | .none => fail t _

theorem getProperty (id : Nat) {c c' : Class} (hc : c.Twin R W c') (t : Token) :
    Twin R W σ (Value.Twin R) (Eval.getProperty id c t) (Eval.getProperty id c' t) := by
  refine bind get fun hW m m' hm => ?_
  have hfield := hm.fields id t.lexeme
  generalize (m.fields id).get? t.lexeme = o at hfield ⊢
  generalize (m'.fields id).get? t.lexeme = o' at hfield ⊢
  cases hfield with
  | some hv => exact pure hv
  | none => exact method (.object id (hc.mono hW)) t ((hc.mono hW).methods t.lexeme)

theorem superMethod {i j : Nat} (hij : R.Supers σ i j) (t x : Token) :
    Twin R W σ (Value.Twin R) (Eval.superMethod i t x) (Eval.superMethod j t x) := by
  refine bind get fun hW m m' hm => ?_
  have hd := hm.supers hij
  generalize m.distances[i]? = o at hd ⊢
  generalize m'.distances[j]? = o' at hd ⊢
  cases hd with
  | none => exact fail t _
  | @some d d' hd =>
    have hparent := hm.frames.getAt? hm.env hd.1 "super"
    have hthis := hm.frames.getAt? hm.env hd.2 "this"
    dsimp only
    generalize m.frames.getAt? m.env d "super" = o at hparent ⊢
    generalize m'.frames.getAt? m'.env d' "super" = o' at hparent ⊢
    generalize m.frames.getAt? m.env (d - 1) "this" = p at hthis ⊢
    generalize m'.frames.getAt? m'.env (d' - 1) "this" = p' at hthis ⊢
    cases hparent with
    | none => exact fail t _
    | some hparent =>
      cases hparent with
      | classDef hparent =>
        cases hthis with
        | none => exact fail t _
        | some hthis =>
          cases hthis with
          | object id hc => exact method (.object id hc) x (hparent.methods x.lexeme)
          | _ => exact fail t _
      | _ => exact fail t _

theorem methodTable {env env' : Env} (henv : W.Spans τ env env') {rs rs' : List Routine}
    (hrs : Routine.TwinAll R (.both :: τ) rs rs') :
    (Eval.methodTable env rs).Agree (Closure.Twin R W [.both]) (Eval.methodTable env' rs') := by
  have hfold : ∀ {rs rs' : List Routine} {t t' : Table Closure}, Routine.TwinAll R (.both :: τ) rs rs' →
      t.Agree (Closure.Twin R W [.both]) t' →
      (rs.foldl (fun t r => t.insert r.name.lexeme ⟨r, env, r.name.lexeme = initName⟩) t).Agree
        (Closure.Twin R W [.both])
        (rs'.foldl (fun t r => t.insert r.name.lexeme ⟨r, env', r.name.lexeme = initName⟩) t') := by
    intro rs
    induction rs with
    | nil =>
      intro rs' t t' hrs ht
      cases hrs
      exact ht
    | cons r rest ih =>
      intro rs' t t' hrs ht
      cases hrs with
      | @cons _ _ r' _ rest' hr hrest =>
        rw [List.foldl_cons, List.foldl_cons, hr.name]
        exact ih hrest (ht.insert _ ⟨⟨τ, henv, trivial, hr⟩, rfl⟩)
  exact hfold hrs fun _ => .none

theorem twin_class {id : Nat} {name : String} {parent parent' : Option Class}
    (hp : Option.Rel (Class.Twin R W) parent parent') {t t' : Table Closure}
    (ht : t.Agree (Closure.Twin R W [.both]) t') :
    Class.Twin R W ⟨id, name, parent, t⟩ ⟨id, name, parent', t'⟩ := by
  refine ⟨rfl, rfl, fun x => ?_⟩
  have hx := ht x
  unfold Class.findMethod
  generalize t.get? x = o at hx
  generalize t'.get? x = o' at hx
  cases hx with
  | some hf => exact .some hf
  | none =>
    cases hp with
    | none => exact .none
    | some hc => exact hc.methods x

theorem mono_parent {W' : World} (hW : W.Grows W') {parent parent' : Option Class}
    (h : Option.Rel (Class.Twin R W) parent parent') : Option.Rel (Class.Twin R W') parent parent' := by
  cases h with
  | none => exact .none
  | some hc => exact .some (hc.mono hW)

/-- The class is assigned to its name once the environment of its methods is there. -/
theorem defineClass (t : Token) {parent parent' : Option Class}
    (hp : Option.Rel (Class.Twin R W) parent parent')
    (henv : Twin R W σ (fun W => W.Spans τ) (Eval.methodEnv parent) (Eval.methodEnv parent'))
    {rs rs' : List Routine} (hrs : Routine.TwinAll R (.both :: τ) rs rs') :
    Twin R W σ (fun _ => Eq) (Eval.defineClass t parent rs) (Eval.defineClass t parent' rs') := by
  rw [Eval.defineClass_eq, Eval.defineClass_eq]
  refine bind henv fun hW env env' he => bind newRef fun hW₁ ref ref' hr => ?_
  subst hr
  exact store (fun m m' hm => hm.frames.holder? hm.env _) t
    (.classDef (twin_class (mono_parent (hW.trans hW₁) hp) (methodTable (he.mono hW₁) hrs)))

theorem methodEnv_none : Twin R W σ (fun W => W.Spans σ) (Eval.methodEnv none) (Eval.methodEnv none) :=
  bind get fun _ _ _ hm => pure hm.env

theorem methodEnv_some {c c' : Class} (hc : c.Twin R W c') :
    Twin R W σ (fun W => W.Spans (.both :: σ)) (Eval.methodEnv (some c)) (Eval.methodEnv (some c')) :=
  bind get fun hW _ _ hm => extend hm.env (.single "super" (.classDef (hc.mono hW)))

/-! ## Operators -/

theorem unaryOp (op : Token) {v v' : Value} (hv : v.Twin R W v') :
    Twin R W σ (Value.Twin R) (Eval.unaryOp op v) (Eval.unaryOp op v') := by
  unfold Eval.unaryOp
  rw [hv.truthy]
  split
  · cases hv with
    | number x => exact pure (.number _)
    | _ => exact fail op _
  · exact pure (.bool _)
  · exact fail op _

theorem numeric (op : Token) {v v' w w' : Value} (hv : v.Twin R W v') (hw : w.Twin R W w')
    {f : Float → Float → Value} (hf : ∀ x y, (f x y).Twin R W (f x y)) :
    Twin R W σ (Value.Twin R) (Eval.numeric op v w f) (Eval.numeric op v' w' f) := by
  cases hv with
  | number x =>
    cases hw with
    | number y => exact pure (hf x y)
    | _ => exact fail op _
  | _ => exact fail op _

theorem plus (op : Token) {v v' w w' : Value} (hv : v.Twin R W v') (hw : w.Twin R W w') :
    Twin R W σ (Value.Twin R) (Eval.add op v w) (Eval.add op v' w') := by
  have hleft : ∀ s, (Value.string (v.text ++ s)).Twin R W (.string (v'.text ++ s)) := by
    intro s
    rw [hv.text]
    exact .string _
  have hright : ∀ s, (Value.string (s ++ w.text)).Twin R W (.string (s ++ w'.text)) := by
    intro s
    rw [hw.text]
    exact .string _
  cases hv with
  | string s => exact pure (hright s)
  | number x =>
    cases hw with
    | number y => exact pure (.number _)
    | string s => exact pure (hleft s)
    | _ => exact fail op _
  | _ =>
    cases hw with
    | string s => exact pure (hleft s)
    | _ => exact fail op _

theorem binaryOp (op : Token) {v v' w w' : Value} (hv : v.Twin R W v') (hw : w.Twin R W w') :
    Twin R W σ (Value.Twin R) (Eval.binaryOp op v w) (Eval.binaryOp op v' w') := by
  unfold Eval.binaryOp
  rw [hv.equal hw]
  split
  case h_1 => exact plus op hv hw
  case h_9 => exact pure (.bool _)
  case h_10 => exact pure (.bool _)
  case h_11 => exact fail op _
  case h_2 | h_3 | h_4 => exact numeric op hv hw fun _ _ => .number _
  all_goals exact numeric op hv hw fun _ _ => .bool _

theorem settles (op : Token) {v v' : Value} (hv : v.Twin R W v') :
    Eval.settles op v' = Eval.settles op v := by
  unfold Eval.settles
  rw [hv.truthy]

end Twin
end Eval

/-! ## Reading a text -/

/-- Reading gives both machines the same program, and leaves the record as it is. -/
theorem Machine.Twin.compile {R : Record} {W : World} {σ : Shape} {m m' : Machine} (h : m.Twin R W σ m')
    (source : String) : (m'.compile source).1 = (m.compile source).1 ∧
      (m.compile source).2.Twin R W σ (m'.compile source).2 := by
  have hnext := Stmt.read_nextId source m.nextNode
  have hs : ∀ p next, Stmt.read source m.nextNode = (.ok p, next) → _ := fun _ _ => Stmt.read_sound
  unfold Machine.compile Machine.analyse
  rw [h.nextNode]
  generalize Stmt.read source m.nextNode = r at hnext hs
  obtain ⟨result, next⟩ := r
  have hm : { m with nextNode := next }.Twin R W σ { m' with nextNode := next } :=
    { h with nextNode := rfl, bound := Nat.le_trans h.bound hnext }
  cases result with
  | error es => exact ⟨rfl, hm⟩
  | ok program =>
    have hlow := (hs program next rfl).2.low_le
    have hma : { m with nextNode := next, distances := (Stmt.analyse program m.distances).distances }.Twin R W
        σ { m' with nextNode := next, distances := (Stmt.analyse program m.distances).distances } :=
      { hm with
        distances := rfl
        record := fun i hi => by
          have hn : i ∉ Stmt.nodesAll program := fun hmem =>
            Nat.not_lt.2 (hlow i hmem) (Nat.lt_of_lt_of_le hi h.bound)
          rw [Stmt.getElem?_analyse_of_not_mem hn]
          exact h.record i hi }
    dsimp only
    rw [h.distances]
    cases (Stmt.analyse program m.distances).errors with
    | nil => exact ⟨rfl, hma⟩
    | cons e rest => exact ⟨rfl, hma⟩

/-! ## The host -/

/-- A host whose functions and loader do not see the numbers of frames, nor frames in which nothing is bound. -/
structure Host.Impartial (host : Host) : Prop where
  functions : ∀ f ∈ host.functions, ∀ (R : Record) (W : World) (σ : Shape) (m m' : Machine)
    (args args' : List Value), m.Twin R W σ m' → List.Forall₂ (Value.Twin R W) args args' →
    AnsweredAlike Eq (Value.Twin R W) (f.run m args) (f.run m' args')
  loader : ∀ load, host.loader = .custom load → ∀ (R : Record) (W : World) (σ : Shape) (m m' : Machine)
    (path : String), m.Twin R W σ m' → (load path m').1 = (load path m).1 ∧
      ∃ W', W.Grows W' ∧ (load path m).2.Twin R W' σ (load path m').2
  restores : host.LoaderRestores

namespace Eval.Twin

variable {R : Record} {W : World} {σ : Shape} {host : Host}

theorem callNative (hb : host.Impartial) (t : Token) (f : Native) {args args' : List Value}
    (hargs : List.Forall₂ (Value.Twin R W) args args') :
    Twin R W σ (Value.Twin R) (Eval.callNative host t f args) (Eval.callNative host t f args') := by
  intro m m' hm
  unfold Eval.callNative
  cases f.code with
  | clock =>
    dsimp only
    rw [hm.ticks]
    exact .ok (.refl W) (.number _) { hm with ticks := rfl }
  | host slot =>
    dsimp only
    cases hg : host.functions[slot]? with
    | none => exact fail t _ m m' hm
    | some g =>
      have ha := hb.functions g (List.mem_of_getElem? hg) R W σ m m' args args' hm hargs
      dsimp only
      generalize g.run m args = r at ha ⊢
      generalize g.run m' args' = r' at ha ⊢
      cases ha with
      | ok hv => exact .ok (.refl W) hv hm
      | error he =>
        subst he
        exact fail t _ m m' hm

theorem custom (hb : host.Impartial) {load : String → Machine → Except Error Unit × Machine}
    (hl : host.loader = .custom load) (path : String) :
    Twin R W σ (fun _ => Eq)
      (fun m => match load path m with
        | (.ok (), m) => .ok () m
        | (.error e, m) => .error (.failed e) m)
      (fun m => match load path m with
        | (.ok (), m) => .ok () m
        | (.error e, m) => .error (.failed e) m) := by
  intro m m' hm
  obtain ⟨ha, W', hW, hm₁⟩ := hb.loader load hl R W σ m m' path hm
  dsimp only
  generalize load path m = r at ha hm₁ ⊢
  generalize load path m' = r' at ha hm₁ ⊢
  obtain ⟨answer, m₁⟩ := r
  obtain ⟨answer', m₁'⟩ := r'
  cases ha
  cases answer with
  | ok _ => exact .ok hW rfl hm₁
  | error e => exact .failed e hW hm₁

theorem request (path : String) : Twin R W σ (fun _ => Eq) (Eval.request path) (Eval.request path) :=
  fun _ _ hm => .ok (.refl W) rfl { hm with requested := congrArg (· ++ [path]) hm.requested }

theorem readScript (path : String) :
    Twin R W σ (fun _ => Eq) (Eval.readScript host path) (Eval.readScript host path) := by
  intro m m' hm
  unfold Eval.readScript
  cases host.read path with
  | error fault => exact .failed _ (.refl W) hm
  | ok source =>
    obtain ⟨hc, hm₁⟩ := hm.compile source
    dsimp only
    generalize m.compile source = r at hc hm₁ ⊢
    generalize m'.compile source = r' at hc hm₁ ⊢
    obtain ⟨result, m₁⟩ := r
    obtain ⟨result', m₁'⟩ := r'
    cases hc
    cases result with
    | error es => exact .failed _ (.refl W) hm₁
    | ok answer => exact .ok (.refl W) rfl { hm₁ with warnings := congrArg (· ++ answer.2) hm₁.warnings }

end Eval.Twin

end Lox
