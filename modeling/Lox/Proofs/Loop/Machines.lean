import Lox.Proofs.Loop.Shapes
import Lox.Proofs.Match.Machines

/-!
# Machines with frames of their own

Two machines are twins when they hold the same values in frames that may be numbered otherwise, and each
may have frames besides in which nothing is bound. A `World` says which frames go together. It grows as the
machines run, and what was alike before stays alike.
-/

namespace Lox

/-- Which frame of one machine goes with which of another, and which frames only one of them has. -/
structure World where
  link : Nat → Nat → Prop
  first : Nat → Prop
  second : Nat → Prop

namespace World

structure Grows (W W' : World) : Prop where
  link {i j : Nat} : W.link i j → W'.link i j
  first {i : Nat} : W.first i → W'.first i
  second {j : Nat} : W.second j → W'.second j

theorem Grows.refl (W : World) : W.Grows W := ⟨id, id, id⟩

theorem Grows.trans {W W₁ W₂ : World} (h : W.Grows W₁) (h₁ : W₁.Grows W₂) : W.Grows W₂ :=
  ⟨h₁.link ∘ h.link, h₁.first ∘ h.first, h₁.second ∘ h.second⟩

/-- The frames `i` and `j` go together from now on. -/
def pair (W : World) (i j : Nat) : World := { W with link := fun k l => W.link k l ∨ (k = i ∧ l = j) }

def onlyFirst (W : World) (i : Nat) : World := { W with first := fun k => W.first k ∨ k = i }

def onlySecond (W : World) (j : Nat) : World := { W with second := fun l => W.second l ∨ l = j }

theorem grows_pair (W : World) (i j : Nat) : W.Grows (W.pair i j) := ⟨.inl, id, id⟩

theorem grows_onlyFirst (W : World) (i : Nat) : W.Grows (W.onlyFirst i) := ⟨id, .inl, id⟩

theorem grows_onlySecond (W : World) (j : Nat) : W.Grows (W.onlySecond j) := ⟨id, id, .inl⟩

/-- Two environments lie beside each other in that shape. -/
inductive Spans (W : World) : Shape → Env → Env → Prop
  | rest {env env' : Env} : List.Forall₂ W.link env env' → Spans W [] env env'
  | both {σ : Shape} {i j : Nat} {env env' : Env} : W.link i j → Spans W σ env env' →
      Spans W (.both :: σ) (i :: env) (j :: env')
  | first {σ : Shape} {i : Nat} {env env' : Env} : W.first i → Spans W σ env env' →
      Spans W (.first :: σ) (i :: env) env'
  | second {σ : Shape} {j : Nat} {env env' : Env} : W.second j → Spans W σ env env' →
      Spans W (.second :: σ) env (j :: env')

namespace Spans

variable {W W' : World} {σ : Shape} {env env' : Env}

theorem mono (hW : W.Grows W') (h : W.Spans σ env env') : W'.Spans σ env env' := by
  induction h with
  | rest h => exact .rest (h.imp fun _ _ => hW.link)
  | both hl _ ih => exact .both (hW.link hl) ih
  | first hf _ ih => exact .first (hW.first hf) ih
  | second hs _ ih => exact .second (hW.second hs) ih

/-- Distances that meet lead to frames that go together. -/
theorem getElem? (h : W.Spans σ env env') {d d' : Nat} (hd : σ.Meet d d') :
    Option.Rel W.link env[d]? env'[d']? := by
  induction h generalizing d d' with
  | rest h =>
    cases hd
    induction h generalizing d with
    | nil => exact .none
    | cons hl _ ih =>
      cases d with
      | zero => exact .some hl
      | succ d => exact ih
  | both hl _ ih =>
    cases hd with
    | here => exact .some hl
    | both hd => exact ih hd
  | first _ _ ih =>
    cases hd with
    | first hd => exact ih hd
  | second _ _ ih =>
    cases hd with
    | second hd => exact ih hd

/-- Where names can be declared, the innermost frames go together. -/
theorem head (h : W.Spans σ env env') (hσ : σ.Solid) :
    (env = [] ∧ env' = []) ∨ ∃ i j outer outer', env = i :: outer ∧ env' = j :: outer' ∧ W.link i j := by
  cases h with
  | rest h =>
    cases h with
    | nil => exact .inl ⟨rfl, rfl⟩
    | cons hl _ => exact .inr ⟨_, _, _, _, rfl, rfl, hl⟩
  | both hl _ => exact .inr ⟨_, _, _, _, rfl, rfl, hl⟩
  | first => exact hσ.elim
  | second => exact hσ.elim

end Spans
end World

/-! ## Values -/

/-- `inner` is what the environment still lacks: for a method, the frame of its receiver. -/
structure Closure.Twin (R : Record) (W : World) (inner : Shape) (f f' : Closure) : Prop where
  place : ∃ σ, W.Spans σ f.env f'.env ∧ Shape.Solid (inner ++ σ) ∧ f.decl.Twin R (inner ++ σ) f'.decl
  isInitializer : f'.isInitializer = f.isInitializer

/-- A class counts by the methods that it finds. -/
structure Class.Twin (R : Record) (W : World) (c c' : Class) : Prop where
  id : c'.id = c.id
  name : c'.name = c.name
  methods : ∀ name, Option.Rel (Closure.Twin R W [.both]) (c.findMethod name) (c'.findMethod name)

inductive Value.Twin (R : Record) (W : World) : Value → Value → Prop
  | nil : Value.Twin R W .nil .nil
  | bool (b : Bool) : Value.Twin R W (.bool b) (.bool b)
  | number (x : Float) : Value.Twin R W (.number x) (.number x)
  | string (s : String) : Value.Twin R W (.string s) (.string s)
  | native (f : Native) : Value.Twin R W (.native f) (.native f)
  | function (id : Nat) {f f' : Closure} : f.Twin R W [] f' → Value.Twin R W (.function id f) (.function id f')
  | classDef {c c' : Class} : c.Twin R W c' → Value.Twin R W (.classDef c) (.classDef c')
  | object (id : Nat) {c c' : Class} : c.Twin R W c' → Value.Twin R W (.object id c) (.object id c')

section

variable {R : Record} {W W' : World} {inner : Shape}

theorem Closure.Twin.arity {f f' : Closure} (h : f.Twin R W inner f') : f'.arity = f.arity := by
  obtain ⟨_, _, _, hdecl⟩ := h.place
  exact congrArg List.length hdecl.params

theorem Closure.Twin.name {f f' : Closure} (h : f.Twin R W inner f') : f'.name = f.name := by
  obtain ⟨_, _, _, hdecl⟩ := h.place
  exact congrArg Token.lexeme hdecl.name

theorem Class.Twin.arity {c c' : Class} (h : c.Twin R W c') : c'.arity = c.arity := by
  have hi := h.methods initName
  unfold Class.arity Class.initializer?
  generalize c.findMethod initName = o at hi
  generalize c'.findMethod initName = o' at hi
  cases hi with
  | none => rfl
  | some hf => exact hf.arity

theorem Closure.Twin.mono (hW : W.Grows W') {f f' : Closure} (h : f.Twin R W inner f') :
    f.Twin R W' inner f' := by
  obtain ⟨σ, henv, hσ, hdecl⟩ := h.place
  exact ⟨⟨σ, henv.mono hW, hσ, hdecl⟩, h.isInitializer⟩

theorem Class.Twin.mono (hW : W.Grows W') {c c' : Class} (h : c.Twin R W c') : c.Twin R W' c' := by
  refine ⟨h.id, h.name, fun name => ?_⟩
  have hm := h.methods name
  generalize c.findMethod name = o at hm
  generalize c'.findMethod name = o' at hm
  cases hm with
  | none => exact .none
  | some hf => exact .some (hf.mono hW)

namespace Value.Twin

variable {v v' w w' : Value}

theorem mono (hW : W.Grows W') (h : v.Twin R W v') : v.Twin R W' v' := by
  cases h with
  | nil => exact .nil
  | bool b => exact .bool b
  | number x => exact .number x
  | string s => exact .string s
  | native f => exact .native f
  | function id hf => exact .function id (hf.mono hW)
  | classDef hc => exact .classDef (hc.mono hW)
  | object id hc => exact .object id (hc.mono hW)

theorem mono_option (hW : W.Grows W') {o o' : Option Value} (h : Option.Rel (Value.Twin R W) o o') :
    Option.Rel (Value.Twin R W') o o' := by
  cases h with
  | none => exact .none
  | some hv => exact .some (hv.mono hW)

theorem truthy (h : v.Twin R W v') : v'.truthy = v.truthy := by
  cases h <;> rfl

theorem text (h : v.Twin R W v') : v'.text = v.text := by
  cases h with
  | function _ hf => exact congrArg ("<fn " ++ · ++ ">") hf.name
  | classDef hc => exact congrArg ("<class " ++ · ++ ">") hc.name
  | object _ hc => exact congrArg ("<instance " ++ · ++ ">") hc.name
  | _ => rfl

theorem callable? (h : v.Twin R W v') : v'.callable? = v.callable? := by
  cases h with
  | function _ hf => simp only [Value.callable?, hf.name, hf.arity]
  | classDef hc => simp only [Value.callable?, hc.name, hc.arity]
  | _ => rfl

theorem equal (h : v.Twin R W v') (k : w.Twin R W w') : v'.equal w' = v.equal w := by
  cases h with
  | classDef hc =>
    cases k with
    | classDef kc => simp only [Value.equal, hc.id, kc.id]
    | _ => rfl
  | _ => cases k <;> rfl

end Value.Twin

theorem Value.twin_ofLiteral (v : Literal) : (Value.ofLiteral v).Twin R W (.ofLiteral v) := by
  cases v with
  | nil => exact .nil
  | bool b => exact .bool b
  | number x => exact .number x
  | string s => exact .string s

end

/-! ## Frames -/

/-- The world is true of the frames: those that go together bind the same names to like values, and a frame
that only one machine has binds none. -/
structure Frames.Twin (R : Record) (W : World) (fs fs' : Frames) : Prop where
  lt {i j : Nat} : W.link i j → i < fs.size ∧ j < fs'.size
  unique {i j k l : Nat} : W.link i j → W.link k l → (i = k ↔ j = l)
  read {i j : Nat} (name : String) : W.link i j →
    Option.Rel (Value.Twin R W) (fs.read i name) (fs'.read j name)
  first {i : Nat} : W.first i → i < fs.size ∧ (∀ j, ¬ W.link i j) ∧ ∀ name, fs.read i name = none
  second {j : Nat} : W.second j → j < fs'.size ∧ (∀ i, ¬ W.link i j) ∧ ∀ name, fs'.read j name = none
  globals : W.link Machine.globalFrame Machine.globalFrame

theorem Frames.holder?_of_read_none {fs : Frames} {i : Nat} (env : Env) {name : String}
    (h : fs.read i name = none) : fs.holder? (i :: env) name = fs.holder? env name := by
  simp [holder?, h]

namespace Frames.Twin

variable {R : Record} {W : World} {σ : Shape} {fs fs' : Frames} {env env' : Env}

/-! ## Reading -/

theorem getAt? (h : fs.Twin R W fs') (henv : W.Spans σ env env') {d d' : Nat} (hd : σ.Meet d d')
    (name : String) : Option.Rel (Value.Twin R W) (fs.getAt? env d name) (fs'.getAt? env' d' name) := by
  have hi := henv.getElem? hd
  unfold Frames.getAt?
  generalize env[d]? = o at hi
  generalize env'[d']? = o' at hi
  cases hi with
  | none => exact .none
  | some hl => exact h.read name hl

theorem isSome_read (h : fs.Twin R W fs') {i j : Nat} (hl : W.link i j) (name : String) :
    (fs'.read j name).isSome = (fs.read i name).isSome := by
  have hr := h.read name hl
  generalize fs.read i name = o at hr
  generalize fs'.read j name = o' at hr
  cases hr <;> rfl

theorem holderAt? (h : fs.Twin R W fs') (henv : W.Spans σ env env') {d d' : Nat} (hd : σ.Meet d d')
    (name : String) : Option.Rel W.link (fs.holderAt? env d name) (fs'.holderAt? env' d' name) := by
  have hi := henv.getElem? hd
  unfold Frames.holderAt?
  generalize env[d]? = o at hi
  generalize env'[d']? = o' at hi
  cases hi with
  | none => exact .none
  | some hl =>
    dsimp only
    rw [h.isSome_read hl]
    split
    · exact .some hl
    · exact .none

/-- A frame that only one machine has is passed over. -/
theorem holder? (h : fs.Twin R W fs') (henv : W.Spans σ env env') (name : String) :
    Option.Rel W.link (fs.holder? env name) (fs'.holder? env' name) := by
  induction henv with
  | rest henv =>
    induction henv with
    | nil => exact .none
    | cons hl _ ih =>
      unfold Frames.holder?
      rw [h.isSome_read hl]
      split
      · exact .some hl
      · exact ih
  | both hl _ ih =>
    unfold Frames.holder?
    rw [h.isSome_read hl]
    split
    · exact .some hl
    · exact ih
  | first hf _ ih =>
    rw [Frames.holder?_of_read_none _ ((h.first hf).2.2 name)]
    exact ih
  | second hs _ ih =>
    rw [Frames.holder?_of_read_none _ ((h.second hs).2.2 name)]
    exact ih

theorem spans_globals (h : fs.Twin R W fs') : W.Spans [] Machine.globals Machine.globals :=
  .rest (.cons h.globals .nil)

theorem get?_globals (h : fs.Twin R W fs') (name : String) :
    Option.Rel (Value.Twin R W) (fs.get? Machine.globals name) (fs'.get? Machine.globals name) := by
  have hr := h.read name h.globals
  unfold Machine.globals Frames.get?
  generalize fs.read Machine.globalFrame name = o at hr
  generalize fs'.read Machine.globalFrame name = o' at hr
  cases hr with
  | none => exact .none
  | some hv => exact .some hv

/-! ## Changing -/

theorem define (h : fs.Twin R W fs') {i j : Nat} (hl : W.link i j) (name : String) {v v' : Value}
    (hv : v.Twin R W v') : (fs.define i name v).Twin R W (fs'.define j name v') where
  lt hk := by
    rw [Frames.size_define, Frames.size_define]
    exact h.lt hk
  unique := h.unique
  read {k l} x hk := by
    rw [Frames.read_define _ (h.lt hl).1, Frames.read_define _ (h.lt hl).2]
    simp only [h.unique hl hk]
    split
    · exact .some hv
    · exact h.read x hk
  first {k} hk := by
    obtain ⟨hlt, hno, hnone⟩ := h.first hk
    refine ⟨by rwa [Frames.size_define], hno, fun x => ?_⟩
    have hne : i ≠ k := fun e => hno j (e ▸ hl)
    rw [Frames.read_define _ (h.lt hl).1, if_neg fun hc => hne hc.1]
    exact hnone x
  second {l} hk := by
    obtain ⟨hlt, hno, hnone⟩ := h.second hk
    refine ⟨by rwa [Frames.size_define], hno, fun x => ?_⟩
    have hne : j ≠ l := fun e => hno i (e ▸ hl)
    rw [Frames.read_define _ (h.lt hl).2, if_neg fun hc => hne hc.1]
    exact hnone x
  globals := h.globals

/-- A new frame on both machines. -/
theorem add (h : fs.Twin R W fs') {frame frame' : Frame}
    (hf : frame.Agree (Value.Twin R W) frame') :
    (fs.add frame).Twin R (W.pair fs.size fs'.size) (fs'.add frame') where
  lt {i j} hl := by
    rw [Frames.size_add, Frames.size_add]
    rcases hl with hl | ⟨rfl, rfl⟩
    · have := h.lt hl
      omega
    · omega
  unique {i j k l} hij hkl := by
    rcases hij with hij | ⟨rfl, rfl⟩
    · rcases hkl with hkl | ⟨rfl, rfl⟩
      · exact h.unique hij hkl
      · have := h.lt hij
        omega
    · rcases hkl with hkl | ⟨rfl, rfl⟩
      · have := h.lt hkl
        omega
      · exact ⟨fun _ => rfl, fun _ => rfl⟩
  read {i j} name hl := by
    refine Value.Twin.mono_option (W.grows_pair _ _) ?_
    rcases hl with hl | ⟨rfl, rfl⟩
    · rw [Frames.read_add_of_lt _ _ (h.lt hl).1, Frames.read_add_of_lt _ _ (h.lt hl).2]
      exact h.read name hl
    · rw [Frames.read_add, Frames.read_add, if_pos rfl, if_pos rfl]
      exact hf name
  first {i} hi := by
    obtain ⟨hlt, hno, hnone⟩ := h.first hi
    refine ⟨by rw [Frames.size_add]; omega, fun j hl => ?_, fun name => ?_⟩
    · rcases hl with hl | ⟨rfl, _⟩
      · exact hno j hl
      · omega
    · rw [Frames.read_add_of_lt _ _ hlt]
      exact hnone name
  second {j} hj := by
    obtain ⟨hlt, hno, hnone⟩ := h.second hj
    refine ⟨by rw [Frames.size_add]; omega, fun i hl => ?_, fun name => ?_⟩
    · rcases hl with hl | ⟨_, rfl⟩
      · exact hno i hl
      · omega
    · rw [Frames.read_add_of_lt _ _ hlt]
      exact hnone name
  globals := .inl h.globals

/-- A new frame on the first machine only. -/
theorem addFirst (h : fs.Twin R W fs') : (fs.add []).Twin R (W.onlyFirst fs.size) fs' where
  lt hl := ⟨by rw [Frames.size_add]; exact Nat.lt_succ_of_lt (h.lt hl).1, (h.lt hl).2⟩
  unique := h.unique
  read name hl := by
    rw [Frames.read_add_of_lt _ _ (h.lt hl).1]
    exact Value.Twin.mono_option (W.grows_onlyFirst _) (h.read name hl)
  first {i} hi := by
    rw [Frames.size_add]
    rcases hi with hi | rfl
    · obtain ⟨hlt, hno, hnone⟩ := h.first hi
      refine ⟨Nat.lt_succ_of_lt hlt, hno, fun name => ?_⟩
      rw [Frames.read_add_of_lt _ _ hlt]
      exact hnone name
    · refine ⟨Nat.lt_succ_self _, fun j hl => Nat.lt_irrefl _ (h.lt hl).1, fun name => ?_⟩
      rw [Frames.read_add, if_pos rfl]
      rfl
  second := h.second
  globals := h.globals

/-- A new frame on the second machine only. -/
theorem addSecond (h : fs.Twin R W fs') : fs.Twin R (W.onlySecond fs'.size) (fs'.add []) where
  lt hl := ⟨(h.lt hl).1, by rw [Frames.size_add]; exact Nat.lt_succ_of_lt (h.lt hl).2⟩
  unique := h.unique
  read name hl := by
    rw [Frames.read_add_of_lt _ _ (h.lt hl).2]
    exact Value.Twin.mono_option (W.grows_onlySecond _) (h.read name hl)
  first := h.first
  second {j} hj := by
    rw [Frames.size_add]
    rcases hj with hj | rfl
    · obtain ⟨hlt, hno, hnone⟩ := h.second hj
      refine ⟨Nat.lt_succ_of_lt hlt, hno, fun name => ?_⟩
      rw [Frames.read_add_of_lt _ _ hlt]
      exact hnone name
    · refine ⟨Nat.lt_succ_self _, fun i hl => Nat.lt_irrefl _ (h.lt hl).2, fun name => ?_⟩
      rw [Frames.read_add, if_pos rfl]
      rfl
  globals := h.globals

end Frames.Twin

/-! ## Machines -/

/-- All but the frames is the same. The environments have the shape `σ`. -/
structure Machine.Twin (R : Record) (W : World) (σ : Shape) (m m' : Machine) : Prop where
  frames : m.frames.Twin R W m'.frames
  env : W.Spans σ m.env m'.env
  objects : m'.objects.size = m.objects.size
  fields : ∀ id, (m.fields id).Agree (Value.Twin R W) (m'.fields id)
  nextRef : m'.nextRef = m.nextRef
  ticks : m'.ticks = m.ticks
  requested : m'.requested = m.requested
  nextNode : m'.nextNode = m.nextNode
  distances : m'.distances = m.distances
  output : m'.output = m.output
  warnings : m'.warnings = m.warnings
  bound : R.bound ≤ m.nextNode
  record : ∀ i < R.bound, m.distances[i]? = R.distances[i]?

namespace Machine.Twin

variable {R : Record} {W W' : World} {σ τ : Shape} {m m' : Machine}

theorem setFrames (h : m.Twin R W σ m') (hW : W.Grows W') {fs fs' : Frames} (hf : fs.Twin R W' fs') :
    { m with frames := fs }.Twin R W' σ { m' with frames := fs' } :=
  { h with
    frames := hf
    env := h.env.mono hW
    fields := fun id name => Value.Twin.mono_option hW (h.fields id name) }

theorem setEnv (h : m.Twin R W σ m') {env env' : Env} (henv : W.Spans τ env env') :
    { m with env := env }.Twin R W τ { m' with env := env' } :=
  { h with env := henv }

theorem names (h : m.Twin R W σ m') {i j : Nat} (hij : R.Names σ i j) :
    Option.Rel σ.Meet m.distances[i]? m'.distances[j]? := by
  rw [h.distances]
  rcases hij with ⟨hσ, rfl⟩ | ⟨hi, hj, hd⟩
  · cases m.distances[i]? with
    | none => exact .none
    | some d => exact .some (hσ.meet d)
  · rw [h.record i hi, h.record j hj]
    exact hd

theorem supers (h : m.Twin R W σ m') {i j : Nat} (hij : R.Supers σ i j) :
    Option.Rel (fun d d' => σ.Meet d d' ∧ σ.Meet (d - 1) (d' - 1)) m.distances[i]? m'.distances[j]? := by
  rw [h.distances]
  rcases hij with ⟨hσ, rfl⟩ | ⟨hi, hj, hd⟩
  · cases m.distances[i]? with
    | none => exact .none
    | some d => exact .some ⟨hσ.meet d, hσ.meet (d - 1)⟩
  · rw [h.record i hi, h.record j hj]
    exact hd

theorem newObject (h : m.Twin R W σ m') :
    { m with objects := m.objects.push [] }.Twin R W σ { m' with objects := m'.objects.push [] } := by
  refine { h with objects := by simp [h.objects], fields := fun id => ?_ }
  rw [fields_push, fields_push]
  exact h.fields id

theorem setField (h : m.Twin R W σ m') (id : Nat) (name : String) {v v' : Value}
    (hv : v.Twin R W v') :
    { m with objects := m.objects.modify id (·.insert name v) }.Twin R W σ
      { m' with objects := m'.objects.modify id (·.insert name v') } := by
  refine { h with objects := by simp [h.objects], fields := fun k => ?_ }
  rw [fields_modify, fields_modify, h.objects]
  split
  · exact (h.fields k).insert name hv
  · exact h.fields k

end Machine.Twin

end Lox
