import Lox.Proofs.Match.Machines
import Lox.Proofs.Match.Parse
import Lox.Proofs.Match.Scoping
import Lox.Proofs.Scope.Events
import Lox.Proofs.WellFormed
import Lox.Session

/-!
# Single steps on matched machines

From matched machines, a step with matched operands ends in the same way on both: in matched values, or in
like errors, and again in matched machines. That includes reading a text, on which the two machines spend the
same number of identities.
-/

namespace Lox
open Ending

/-! ## Reading a text -/

theorem Scan.exists_eof (fuel line : Nat) (cs : List Char) :
    ∃ t, .ok t ∈ Scan.items fuel line cs ∧ Parse.isEof t = true := by
  induction fuel generalizing line cs with
  | zero => exact ⟨_, List.mem_singleton.2 rfl, rfl⟩
  | succ fuel ih =>
    cases cs with
    | nil => exact ⟨_, List.mem_singleton.2 rfl, rfl⟩
    | cons c cs =>
      obtain ⟨t, ht, he⟩ := ih (piece line c cs).line ((c :: cs).drop (piece line c cs).text.length)
      refine ⟨t, ?_, he⟩
      rw [items]
      split
      · exact List.mem_cons_of_mem _ ht
      · exact ht

theorem Item.exists_eof (source : String) :
    ∃ t ∈ Item.tokens (Token.scan source), Parse.isEof t = true := by
  obtain ⟨t, ht, he⟩ := Scan.exists_eof source.length 1 source.toList
  exact ⟨t, List.mem_filterMap.2 ⟨_, ht, rfl⟩, he⟩

/-- One text read twice. -/
theorem Stmt.read_matched {ρ : Matching} {E : Error → Error → Prop} (ha : Parse.Abreast ρ E)
    (hl : ∀ k, ρ.line k k) (source : String)
    (he : ∀ e ∈ Item.errors (Token.scan source), E e e) {i j : Nat} (hi : ρ.node i j) :
    Stmt.ReadAlike ρ E (Stmt.read source i).1 (Stmt.read source j).1 ∧
      ρ.node (Stmt.read source i).2 (Stmt.read source j).2 := by
  have hp := Stmt.parse_matched ha (Token.matchedAll_self hl (Item.tokens (Token.scan source)))
    (Item.exists_eof source) hi
  have hlex : List.Forall₂ E (Item.errors (Token.scan source)) (Item.errors (Token.scan source)) :=
    List.forall₂_same.2 he
  unfold Stmt.read
  dsimp only
  generalize Stmt.parse (Item.tokens (Token.scan source)) i = r at hp ⊢
  generalize Stmt.parse (Item.tokens (Token.scan source)) j = r' at hp ⊢
  obtain ⟨result, next⟩ := r
  obtain ⟨result', next'⟩ := r'
  obtain ⟨hr, hn⟩ := hp
  cases hr with
  | error hes => exact ⟨.error (List.rel_append hlex hes), hn⟩
  | ok hprogram =>
    refine ⟨?_, hn⟩
    dsimp only
    split
    · exact .ok hprogram
    · exact .error hlex

/-- What two compilations of one text give. -/
inductive CompiledAlike (ρ : Matching) : Except (List Error) (List Stmt × List Warning) →
    Except (List Error) (List Stmt × List Warning) → Prop
  | ok {program program' : List Stmt} (warnings : List Warning) : Stmt.MatchedAll ρ program program' →
      CompiledAlike ρ (.ok (program, warnings)) (.ok (program', warnings))
  | error (es : List Error) : CompiledAlike ρ (.error es) (.error es)

namespace Pairing

variable (π : Pairing)

/-- Identities handed out from now on, on the same lines. -/
def ahead : Matching := ⟨π.InStep, Eq⟩

theorem eq_of_ahead {t t' : Token} (h : t.Matched π.ahead t') : t' = t := by
  cases t
  cases t'
  obtain ⟨hk, hx, hl⟩ := h
  cases hk
  cases hx
  cases hl
  rfl

theorem abreast_parse : Parse.Abreast π.ahead Eq where
  node_succ := by
    rintro _ _ ⟨k, rfl, rfl⟩
    exact ⟨k + 1, rfl, rfl⟩
  error ht _ := by rw [π.eq_of_ahead ht]

/-- All identities that go together, on the same lines. -/
def aligned : Matching := ⟨π.matching.node, Eq⟩

theorem abreast_scoping : Scoping.Abreast π.aligned Eq 0 where
  line h := h.symm
  node := π.node_unique
  error {t t' _} ht _ := by
    have ht' : t.Matched π.ahead t' := ⟨ht.kind, ht.lexeme, ht.line⟩
    rw [π.eq_of_ahead ht']

end Pairing

theorem Warning.map_shift_zero (ws : List Warning) : ws.map (Warning.shift 0) = ws :=
  List.map_id' _

/-- Analyses of matched programs on matched machines report the same. -/
theorem Machine.Matched.analyse {π : Pairing} {m m' : Machine} (h : m.Matched π m')
    {program program' : List Stmt} (hp : Stmt.MatchedAll π.aligned program program') :
    (Stmt.analyse program' m'.distances).errors = (Stmt.analyse program m.distances).errors ∧
    (Stmt.analyse program' m'.distances).warnings = (Stmt.analyse program m.distances).warnings ∧
    ∀ i j, π.matching.node i j → (Stmt.analyse program' m'.distances).distances[j]? =
      (Stmt.analyse program m.distances).distances[i]? := by
  have ha := hp.resolve π.abreast_scoping {} (.start h.distances)
  obtain ⟨new, hw, hw'⟩ := ha.warnings
  rw [Warning.map_shift_zero] at hw'
  refine ⟨(List.forall₂_eq_eq_eq ▸ ha.errors : _ = _).symm, ?_, ha.distances⟩
  unfold Stmt.analyse
  dsimp only
  rw [hw, hw']

theorem Machine.Matched.setNodes {π : Pairing} {m m' : Machine} (h : m.Matched π m')
    {next next' : Nat} (hn : π.InStep next next') (hl : m.nextNode ≤ next) (hl' : m'.nextNode ≤ next') :
    { m with nextNode := next }.Matched π { m' with nextNode := next' } :=
  { h with
    nodes := hn
    fresh := fun i hi => h.fresh i (Nat.le_trans hl hi)
    fresh' := fun j hj => h.fresh' j (Nat.le_trans hl' hj) }

theorem Machine.Matched.compile {π : Pairing} {m m' : Machine} (h : m.Matched π m') (source : String) :
    CompiledAlike π.matching (m.compile source).1 (m'.compile source).1 ∧
      (m.compile source).2.Matched π (m'.compile source).2 := by
  obtain ⟨hread, hnext⟩ := Stmt.read_matched π.abreast_parse (fun _ => rfl) source
    (fun _ _ => rfl) h.nodes
  have hl := Stmt.read_nextId source m.nextNode
  have hl' := Stmt.read_nextId source m'.nextNode
  have hs : ∀ p next, Stmt.read source m.nextNode = (.ok p, next) → _ := fun _ _ => Stmt.read_sound
  have hs' : ∀ p next, Stmt.read source m'.nextNode = (.ok p, next) → _ := fun _ _ => Stmt.read_sound
  unfold Machine.compile
  generalize Stmt.read source m.nextNode = r at *
  generalize Stmt.read source m'.nextNode = r' at *
  obtain ⟨result, next⟩ := r
  obtain ⟨result', next'⟩ := r'
  have hm := h.setNodes hnext hl hl'
  cases hread with
  | @error es es' hes =>
    rw [List.forall₂_eq_eq_eq] at hes
    subst hes
    exact ⟨.error es, hm⟩
  | @ok program program' hp =>
    have halign : Stmt.MatchedAll π.aligned program program' :=
      hp.retarget (ρ := π.ahead) (σ := π.aligned) (fun _ _ hkl => hkl) (hp.nodes.imp fun _ _ hij => Or.inr hij)
    have hmatch : Stmt.MatchedAll π.matching program program' :=
      halign.retarget (fun k l hkl => hkl ▸ π.line_refl k) halign.nodes
    obtain ⟨herrors, hwarnings, hdistances⟩ := hm.analyse halign
    have hlt := (hs program next rfl).2.lt_high
    have hlt' := (hs' program' next' rfl).2.lt_high
    have hma : { m with nextNode := next, distances := (Stmt.analyse program m.distances).distances }.Matched
        π { m' with nextNode := next', distances := (Stmt.analyse program' m'.distances).distances } :=
      { hm with
        distances := hdistances
        fresh := fun i hi => by
          rw [Stmt.getElem?_analyse_of_not_mem fun hmem => Nat.not_lt.2 hi (hlt i hmem)]
          exact hm.fresh i hi
        fresh' := fun j hj => by
          rw [Stmt.getElem?_analyse_of_not_mem fun hmem => Nat.not_lt.2 hj (hlt' j hmem)]
          exact hm.fresh' j hj }
    unfold Machine.analyse
    dsimp only
    rw [herrors, hwarnings]
    cases (Stmt.analyse program m.distances).errors with
    | nil => exact ⟨.ok _ hmatch, hma⟩
    | cons e rest => exact ⟨.error _, hma⟩

/-! ## Computations -/

namespace Eval

variable {α β : Type}

inductive Ended (π : Pairing) (A : α → α → Prop) :
    EStateM.Result Stop Machine α → EStateM.Result Stop Machine α → Prop
  | ok {a a' : α} {m m' : Machine} : A a a' → m.Matched π m' → Ended π A (.ok a m) (.ok a' m')
  | failed {e e' : Error} {m m' : Machine} : π.error e e' → m.Matched π m' →
      Ended π A (.error (.failed e) m) (.error (.failed e') m')
  | exhausted {m m' : Machine} : Ended π A (.error .exhausted m) (.error .exhausted m')

/-- From matched machines, two computations end alike, with results that go together as `A` says. -/
def Alike (π : Pairing) (A : α → α → Prop) (p p' : Eval α) : Prop :=
  ∀ m m', m.Matched π m' → Ended π A (p m) (p' m')

namespace Alike

variable {π : Pairing} {A : α → α → Prop} {B : β → β → Prop}

theorem pure {a a' : α} (h : A a a') : Alike π A (Pure.pure a) (Pure.pure a') :=
  fun _ _ hm => .ok h hm

theorem exhausted : Alike π A (throw .exhausted) (throw .exhausted) := fun _ _ _ => .exhausted

theorem get : Alike π (Machine.Matched π) MonadState.get MonadState.get := fun _ _ hm => .ok hm hm

theorem fail {t t' : Token} (ht : t.Matched π.matching t') (fault : RuntimeFault) :
    Alike π A (Eval.fail t fault) (Eval.fail t' fault) :=
  fun _ _ hm => .failed (π.error_runtime fault ht.line) hm

theorem bind {p p' : Eval α} {f f' : α → Eval β} (hp : Alike π A p p')
    (hf : ∀ a a', A a a' → Alike π B (f a) (f' a')) : Alike π B (p >>= f) (p' >>= f') := by
  intro m m' hm
  have h := hp m m' hm
  show Ended π B (EStateM.bind p f m) (EStateM.bind p' f' m')
  unfold EStateM.bind
  generalize p m = r at h ⊢
  generalize p' m' = r' at h ⊢
  cases h with
  | ok ha hm₁ => exact hf _ _ ha _ _ hm₁
  | failed he hm₁ => exact .failed he hm₁
  | exhausted => exact .exhausted

theorem ite {c : Prop} [Decidable c] {p p' q q' : Eval α} (hp : Alike π A p p')
    (hq : Alike π A q q') : Alike π A (if c then p else q) (if c then p' else q') := by
  split
  · exact hp
  · exact hq

theorem ended_discard {p p' : Eval α} {m m' : Machine} (h : Ended π A (p m) (p' m')) :
    Ended π Eq (Functor.discard p m) (Functor.discard p' m') := by
  show Ended π Eq (EStateM.map _ p m) (EStateM.map _ p' m')
  unfold EStateM.map
  generalize p m = r at h ⊢
  generalize p' m' = r' at h ⊢
  cases h with
  | ok _ hm₁ => exact .ok rfl hm₁
  | failed he hm₁ => exact .failed he hm₁
  | exhausted => exact .exhausted

theorem discard {p p' : Eval α} (hp : Alike π A p p') :
    Alike π Eq (Functor.discard p) (Functor.discard p') :=
  fun m m' hm => ended_discard (hp m m' hm)

theorem ended_inEnv (env : Env) {p p' : Eval α} {m m' : Machine} (henv : m'.env = m.env)
    (h : Ended π A (p { m with env := env }) (p' { m' with env := env })) :
    Ended π A (Eval.inEnv env p m) (Eval.inEnv env p' m') := by
  unfold Eval.inEnv
  dsimp only
  generalize p { m with env := env } = r at h ⊢
  generalize p' { m' with env := env } = r' at h ⊢
  cases h with
  | ok ha hm₁ => exact .ok ha { hm₁ with env := henv }
  | failed he hm₁ => exact .failed he { hm₁ with env := henv }
  | exhausted => exact .exhausted

theorem inEnv (env : Env) {p p' : Eval α} (hp : Alike π A p p') :
    Alike π A (Eval.inEnv env p) (Eval.inEnv env p') :=
  fun _ _ hm => ended_inEnv env hm.env (hp _ _ { hm with env := rfl })

/-! ## Output -/

theorem writeLine (s : String) : Alike π Eq (Eval.writeLine s) (Eval.writeLine s) := by
  intro m m' hm
  obtain ⟨hr, hs⟩ := hm.output.write (s ++ "\n")
  unfold Eval.writeLine
  generalize m.output.write (s ++ "\n") = r at hr hs ⊢
  generalize m'.output.write (s ++ "\n") = r' at hr hs ⊢
  obtain ⟨reason, sink⟩ := r
  obtain ⟨reason', sink'⟩ := r'
  cases hr
  cases reason with
  | none => exact .ok rfl { hm with output := hs }
  | some reason => exact .failed (π.error_refl _) { hm with output := hs }

theorem flush : Alike π Eq Eval.flush Eval.flush := by
  intro m m' hm
  obtain ⟨hr, hs⟩ := hm.output.flush
  unfold Eval.flush
  generalize m.output.flush = r at hr hs ⊢
  generalize m'.output.flush = r' at hr hs ⊢
  obtain ⟨reason, sink⟩ := r
  obtain ⟨reason', sink'⟩ := r'
  cases hr
  cases reason with
  | none => exact .ok rfl { hm with output := hs }
  | some reason => exact .failed (π.error_refl _) { hm with output := hs }

theorem ended_flushing {p p' : Eval α} {m m' : Machine} (h : Ended π A (p m) (p' m')) :
    Ended π A (Eval.flushing p m) (Eval.flushing p' m') := by
  unfold Eval.flushing
  generalize p m = r at h ⊢
  generalize p' m' = r' at h ⊢
  cases h with
  | ok ha hm₁ => exact bind flush (fun _ _ _ => pure ha) _ _ hm₁
  | failed he hm₁ => exact bind flush (fun _ _ _ _ _ hm₂ => .failed he hm₂) _ _ hm₁
  | exhausted => exact .exhausted

theorem flushing {p p' : Eval α} (hp : Alike π A p p') :
    Alike π A (Eval.flushing p) (Eval.flushing p') :=
  fun m m' hm => ended_flushing (hp m m' hm)

/-! ## Variables -/

theorem extend (outer : Env) {frame frame' : Frame}
    (hf : frame.Agree (Value.Matched π.matching) frame') :
    Alike π Eq (Eval.extend outer frame) (Eval.extend outer frame') :=
  fun _ _ hm => .ok (congrArg (· :: outer) hm.size.symm) (hm.add hf)

theorem define (name : String) {v v' : Value} (hv : v.Matched π.matching v') :
    Alike π Eq (Eval.define name v) (Eval.define name v') := by
  intro m m' hm
  unfold Eval.define
  split
  case h_1 henv =>
    split
    · exact .ok rfl hm
    case h_2 henv' =>
      rw [hm.env, henv] at henv'
      cases henv'
  case h_2 i rest henv =>
    split
    case h_1 henv' =>
      rw [hm.env, henv] at henv'
      cases henv'
    case h_2 henv' =>
      rw [hm.env, henv] at henv'
      cases henv'
      exact .ok rfl (hm.define i name hv)

theorem undefined {t t' : Token} (ht : t.Matched π.matching t') :
    Alike π A (Eval.undefined t) (Eval.undefined t') := by
  unfold Eval.undefined
  rw [ht.lexeme]
  exact fail ht _

/-- A variable that is found or not. -/
theorem found {t t' : Token} (ht : t.Matched π.matching t') {m m' : Machine} (hm : m.Matched π m')
    {o o' : Option Value} : Option.Rel (Value.Matched π.matching) o o' →
    Ended π (Value.Matched π.matching)
      (match o with | some v => .ok v m | none => Eval.undefined t m)
      (match o' with | some v => .ok v m' | none => Eval.undefined t' m')
  | .some hv => .ok hv hm
  | .none => undefined ht m m' hm

theorem lookUp {i j : Nat} (hij : π.matching.node i j) {t t' : Token} (ht : t.Matched π.matching t') :
    Alike π (Value.Matched π.matching) (Eval.lookUp i t) (Eval.lookUp j t') := by
  intro m m' hm
  unfold Eval.lookUp
  dsimp only
  rw [hm.distances i j hij, ht.lexeme, hm.env]
  cases m.distances[i]? with
  | none => exact found ht hm (hm.get? _ _)
  | some d => exact found ht hm (hm.getAt? _ _ _)

theorem store {holder holder' : Machine → Option Nat}
    (hh : ∀ m m', m.Matched π m' → holder' m' = holder m) {t t' : Token}
    (ht : t.Matched π.matching t') {v v' : Value} (hv : v.Matched π.matching v') :
    Alike π Eq (Eval.store holder t v) (Eval.store holder' t' v') := by
  intro m m' hm
  unfold Eval.store
  rw [hh m m' hm, ht.lexeme]
  cases holder m with
  | some i => exact .ok rfl (hm.define i _ hv)
  | none => exact undefined ht m m' hm

theorem assign {i j : Nat} (hij : π.matching.node i j) {t t' : Token} (ht : t.Matched π.matching t')
    {v v' : Value} (hv : v.Matched π.matching v') :
    Alike π Eq (Eval.assign i t v) (Eval.assign j t' v') := by
  refine store (fun m m' hm => ?_) ht hv
  rw [hm.distances i j hij, ht.lexeme, hm.env]
  cases m.distances[i]? with
  | none => exact hm.holder? _ _
  | some d => exact hm.holderAt? _ _ _

/-! ## Functions, classes and objects -/

theorem newRef : Alike π Eq Eval.newRef Eval.newRef :=
  fun _ _ hm => .ok hm.nextRef.symm { hm with nextRef := congrArg (· + 1) hm.nextRef }

theorem newFunction {f f' : Closure} (hf : f.Matched π.matching f') :
    Alike π (Value.Matched π.matching) (Eval.newFunction f) (Eval.newFunction f') := by
  refine bind newRef fun ref ref' hr => ?_
  subst hr
  exact pure (.function ref hf)

theorem newObject {c c' : Class} (hc : c.Matched π.matching c') :
    Alike π (Value.Matched π.matching) (Eval.newObject c) (Eval.newObject c') := by
  intro m m' hm
  unfold Eval.newObject
  rw [hm.objects]
  exact .ok (.object _ hc) hm.newObject

theorem setField (id : Nat) {t t' : Token} (ht : t.Matched π.matching t') {v v' : Value}
    (hv : v.Matched π.matching v') : Alike π Eq (Eval.setField id t v) (Eval.setField id t' v') := by
  intro m m' hm
  unfold Eval.setField
  rw [ht.lexeme]
  exact .ok rfl (hm.setField id _ hv)

theorem attach {receiver receiver' : Value} (hv : receiver.Matched π.matching receiver')
    {f f' : Closure} (hf : f.Matched π.matching f') :
    Alike π (Closure.Matched π.matching) (Eval.attach receiver f) (Eval.attach receiver' f') := by
  unfold Eval.attach
  rw [hf.env]
  refine bind (extend f.env (.single "this" hv)) fun env env' he => ?_
  subst he
  exact pure ⟨hf.decl, rfl, hf.isInitializer⟩

theorem boundMethod {receiver receiver' : Value} (hv : receiver.Matched π.matching receiver')
    {f f' : Closure} (hf : f.Matched π.matching f') :
    Alike π (Value.Matched π.matching) (do Eval.newFunction (← Eval.attach receiver f))
      (do Eval.newFunction (← Eval.attach receiver' f')) :=
  bind (attach hv hf) fun _ _ hg => newFunction hg

/-- A method that is found, and bound to a receiver, or not. -/
theorem method {receiver receiver' : Value} (hv : receiver.Matched π.matching receiver') {t t' : Token}
    (ht : t.Matched π.matching t') {o o' : Option Closure} :
    Option.Rel (Closure.Matched π.matching) o o' →
    Alike π (Value.Matched π.matching)
      (match o with
        | some f => do Eval.newFunction (← Eval.attach receiver f)
        | none => Eval.fail t (.undefinedProperty t.lexeme))
      (match o' with
        | some f => do Eval.newFunction (← Eval.attach receiver' f)
        | none => Eval.fail t' (.undefinedProperty t'.lexeme))
  | .some hf => boundMethod hv hf
  | .none => by
    rw [ht.lexeme]
    exact fail ht _

theorem getProperty (id : Nat) {c c' : Class} (hc : c.Matched π.matching c') {t t' : Token}
    (ht : t.Matched π.matching t') :
    Alike π (Value.Matched π.matching) (Eval.getProperty id c t) (Eval.getProperty id c' t') := by
  refine bind get fun m m' hm => ?_
  have hfield := hm.fields id t.lexeme
  have hmethod := hc.methods t.lexeme
  have hnone := method (.object id hc) ht hmethod
  rw [ht.lexeme] at hnone ⊢
  generalize (m.fields id).get? t.lexeme = o at hfield ⊢
  generalize (m'.fields id).get? t.lexeme = o' at hfield ⊢
  cases hfield with
  | some hv => exact pure hv
  | none => exact hnone

theorem superMethod {i j : Nat} (hij : π.matching.node i j) {t t' x x' : Token}
    (ht : t.Matched π.matching t') (hx : x.Matched π.matching x') :
    Alike π (Value.Matched π.matching) (Eval.superMethod i t x) (Eval.superMethod j t' x') := by
  refine bind get fun m m' hm => ?_
  rw [hm.distances i j hij, hm.env]
  cases m.distances[i]? with
  | none => exact undefined ht
  | some d =>
    have hparent := hm.getAt? m.env d "super"
    have hthis := hm.getAt? m.env (d - 1) "this"
    dsimp only
    generalize m.frames.getAt? m.env d "super" = o at hparent ⊢
    generalize m'.frames.getAt? m.env d "super" = o' at hparent ⊢
    generalize m.frames.getAt? m.env (d - 1) "this" = p at hthis ⊢
    generalize m'.frames.getAt? m.env (d - 1) "this" = p' at hthis ⊢
    cases hparent with
    | none => exact undefined ht
    | some hparent =>
      cases hparent with
      | classDef hparent =>
        cases hthis with
        | none => exact fail ht _
        | some hthis =>
          cases hthis with
          | object id hc =>
            have hmethod := method (.object id hc) hx (hparent.methods x.lexeme)
            dsimp only
            rw [hx.lexeme] at hmethod ⊢
            exact hmethod
          | _ => exact fail ht _
      | _ => exact undefined ht

theorem methodTable (env : Env) {rs rs' : List Routine} (hrs : Routine.MatchedAll π.matching rs rs') :
    (Eval.methodTable env rs).Agree (Closure.Matched π.matching) (Eval.methodTable env rs') := by
  have hfold : ∀ {rs rs' : List Routine} {t t' : Table Closure}, Routine.MatchedAll π.matching rs rs' →
      t.Agree (Closure.Matched π.matching) t' →
      (rs.foldl (fun t r => t.insert r.name.lexeme ⟨r, env, r.name.lexeme = initName⟩) t).Agree
        (Closure.Matched π.matching)
        (rs'.foldl (fun t r => t.insert r.name.lexeme ⟨r, env, r.name.lexeme = initName⟩) t') := by
    intro rs
    induction rs with
    | nil =>
      intro rs' t t' hrs ht
      cases hrs
      exact ht
    | cons r rest ih =>
      intro rs' t t' hrs ht
      cases hrs with
      | @cons _ r' _ rest' hr hrest =>
        rw [List.foldl_cons, List.foldl_cons, hr.name.lexeme]
        exact ih hrest (ht.insert _ ⟨hr, rfl, rfl⟩)
  exact hfold hrs fun _ => .none

theorem matched_class {id : Nat} {name : String} {parent parent' : Option Class}
    (hp : Option.Rel (Class.Matched π.matching) parent parent') {t t' : Table Closure}
    (ht : t.Agree (Closure.Matched π.matching) t') :
    Class.Matched π.matching ⟨id, name, parent, t⟩ ⟨id, name, parent', t'⟩ := by
  refine ⟨rfl, rfl, fun x => ?_⟩
  have hx := ht x
  unfold Class.findMethod
  generalize t.get? x = o at hx
  generalize t'.get? x = o' at hx
  cases hx with
  | some hf => exact .some hf
  | none =>
    cases hp with
    | none => exact .none
    | some hc => exact hc.methods x

theorem methodEnv {parent parent' : Option Class}
    (hp : Option.Rel (Class.Matched π.matching) parent parent') :
    Alike π Eq (Eval.methodEnv parent) (Eval.methodEnv parent') := by
  cases hp with
  | none =>
    exact bind get fun m m' hm => pure hm.env.symm
  | some hc =>
    refine bind get fun m m' hm => ?_
    rw [hm.env]
    exact extend _ (.single "super" (.classDef hc))

theorem defineClass {t t' : Token} (ht : t.Matched π.matching t') {parent parent' : Option Class}
    (hp : Option.Rel (Class.Matched π.matching) parent parent') {rs rs' : List Routine}
    (hrs : Routine.MatchedAll π.matching rs rs') :
    Alike π Eq (Eval.defineClass t parent rs) (Eval.defineClass t' parent' rs') := by
  rw [Eval.defineClass_eq, Eval.defineClass_eq]
  refine bind (methodEnv hp) fun env env' he => bind newRef fun ref ref' hr => ?_
  subst he hr
  rw [ht.lexeme]
  refine store (fun m m' hm => ?_) ht (.classDef (matched_class hp (methodTable env hrs)))
  rw [hm.env]
  exact hm.holder? _ _

/-! ## Operators -/

theorem unaryOp {op op' : Token} (ho : op.Matched π.matching op') {v v' : Value}
    (hv : v.Matched π.matching v') :
    Alike π (Value.Matched π.matching) (Eval.unaryOp op v) (Eval.unaryOp op' v') := by
  unfold Eval.unaryOp
  rw [ho.kind, hv.truthy]
  split
  · cases hv with
    | number x => exact pure (.number _)
    | _ => exact fail ho _
  · exact pure (.bool _)
  · exact fail ho _

theorem numeric {op op' : Token} (ho : op.Matched π.matching op') {v v' w w' : Value}
    (hv : v.Matched π.matching v') (hw : w.Matched π.matching w') {f : Float → Float → Value}
    (hf : ∀ x y, (f x y).Matched π.matching (f x y)) :
    Alike π (Value.Matched π.matching) (Eval.numeric op v w f) (Eval.numeric op' v' w' f) := by
  cases hv with
  | number x =>
    cases hw with
    | number y => exact pure (hf x y)
    | _ => exact fail ho _
  | _ => exact fail ho _

theorem plus {op op' : Token} (ho : op.Matched π.matching op') {v v' w w' : Value}
    (hv : v.Matched π.matching v') (hw : w.Matched π.matching w') :
    Alike π (Value.Matched π.matching) (Eval.add op v w) (Eval.add op' v' w') := by
  have hleft : ∀ s, (Value.string (v.text ++ s)).Matched π.matching (.string (v'.text ++ s)) := by
    intro s
    rw [hv.text]
    exact .string _
  have hright : ∀ s, (Value.string (s ++ w.text)).Matched π.matching (.string (s ++ w'.text)) := by
    intro s
    rw [hw.text]
    exact .string _
  cases hv with
  | string s => exact pure (hright s)
  | number x =>
    cases hw with
    | number y => exact pure (.number _)
    | string s => exact pure (hleft s)
    | _ => exact fail ho _
  | _ =>
    cases hw with
    | string s => exact pure (hleft s)
    | _ => exact fail ho _

theorem binaryOp {op op' : Token} (ho : op.Matched π.matching op') {v v' w w' : Value}
    (hv : v.Matched π.matching v') (hw : w.Matched π.matching w') :
    Alike π (Value.Matched π.matching) (Eval.binaryOp op v w) (Eval.binaryOp op' v' w') := by
  unfold Eval.binaryOp
  rw [ho.kind, hv.equal hw]
  split
  case h_1 => exact plus ho hv hw
  case h_9 => exact pure (.bool _)
  case h_10 => exact pure (.bool _)
  case h_11 => exact fail ho _
  case h_2 | h_3 | h_4 => exact numeric ho hv hw fun _ _ => .number _
  all_goals exact numeric ho hv hw fun _ _ => .bool _

theorem settles {op op' : Token} (ho : op.Matched π.matching op') {v v' : Value}
    (hv : v.Matched π.matching v') : Eval.settles op' v' = Eval.settles op v := by
  unfold Eval.settles
  rw [ho.kind, hv.truthy]

end Alike
end Eval

/-! ## The host -/

/-- The answers of the host go together. -/
inductive AnsweredAlike {ε α : Type} (E : ε → ε → Prop) (A : α → α → Prop) :
    Except ε α → Except ε α → Prop
  | ok {a a' : α} : A a a' → AnsweredAlike E A (.ok a) (.ok a')
  | error {e e' : ε} : E e e' → AnsweredAlike E A (.error e) (.error e')

/-- A host whose functions and loader do not see identities and lines. -/
structure Host.Blind (host : Host) : Prop where
  functions : ∀ f ∈ host.functions, ∀ (π : Pairing) (m m' : Machine) (args args' : List Value),
    m.Matched π m' → List.Forall₂ (Value.Matched π.matching) args args' →
    AnsweredAlike Eq (Value.Matched π.matching) (f.run m args) (f.run m' args')
  loader : ∀ load, host.loader = .custom load → ∀ (π : Pairing) (m m' : Machine) (path : String),
    m.Matched π m' → AnsweredAlike π.error Eq (load path m).1 (load path m').1 ∧
      (load path m).2.Matched π (load path m').2

namespace Eval.Alike

variable {π : Pairing} {host : Host}

theorem callNative (hb : host.Blind) {t t' : Token} (ht : t.Matched π.matching t') (f : Native)
    {args args' : List Value} (hargs : List.Forall₂ (Value.Matched π.matching) args args') :
    Alike π (Value.Matched π.matching) (Eval.callNative host t f args)
      (Eval.callNative host t' f args') := by
  intro m m' hm
  unfold Eval.callNative
  cases f.code with
  | clock =>
    dsimp only
    rw [hm.ticks]
    exact .ok (.number _) { hm with ticks := rfl }
  | host slot =>
    dsimp only
    cases hg : host.functions[slot]? with
    | none => exact fail ht _ m m' hm
    | some g =>
      have ha := hb.functions g (List.mem_of_getElem? hg) π m m' args args' hm hargs
      dsimp only
      generalize g.run m args = r at ha ⊢
      generalize g.run m' args' = r' at ha ⊢
      cases ha with
      | ok hv => exact .ok hv hm
      | error he =>
        subst he
        exact fail ht _ m m' hm

theorem custom (hb : host.Blind) {load : String → Machine → Except Error Unit × Machine}
    (hl : host.loader = .custom load) (path : String) :
    Alike π Eq
      (fun m => match load path m with
        | (.ok (), m) => .ok () m
        | (.error e, m) => .error (.failed e) m)
      (fun m => match load path m with
        | (.ok (), m) => .ok () m
        | (.error e, m) => .error (.failed e) m) := by
  intro m m' hm
  obtain ⟨ha, hm₁⟩ := hb.loader load hl π m m' path hm
  dsimp only
  generalize load path m = r at ha hm₁ ⊢
  generalize load path m' = r' at ha hm₁ ⊢
  obtain ⟨answer, m₁⟩ := r
  obtain ⟨answer', m₁'⟩ := r'
  cases ha with
  | ok _ => exact .ok rfl hm₁
  | error he => exact .failed he hm₁

theorem request (path : String) : Alike π Eq (Eval.request path) (Eval.request path) :=
  fun _ _ hm => .ok rfl { hm with requested := congrArg (· ++ [path]) hm.requested }

theorem readScript (path : String) :
    Alike π (Stmt.MatchedAll π.matching) (Eval.readScript host path) (Eval.readScript host path) := by
  intro m m' hm
  unfold Eval.readScript
  cases host.read path with
  | error fault => exact .failed (π.error_refl _) hm
  | ok source =>
    obtain ⟨hc, hm₁⟩ := hm.compile source
    dsimp only
    generalize m.compile source = r at hc hm₁ ⊢
    generalize m'.compile source = r' at hc hm₁ ⊢
    obtain ⟨result, m₁⟩ := r
    obtain ⟨result', m₁'⟩ := r'
    cases hc with
    | error es => exact .failed (π.error_refl _) hm₁
    | ok warnings hp =>
      obtain ⟨new, hw, hw'⟩ := hm₁.warnings
      refine .ok hp { hm₁ with warnings := ⟨new ++ warnings, ?_, ?_⟩ }
      · show m₁.warnings ++ warnings = _
        rw [hw, List.append_assoc]
      · show m₁'.warnings ++ warnings = _
        rw [hw', List.append_assoc]

end Eval.Alike

end Lox
