import Lox.Proofs.Scope.Places

/-!
# Calls and classes

The frame of a call binds the parameters and nothing else. A class is sound if its own methods and
those it inherits are, and a method is sound where its class is declared.
-/

namespace Lox
open Scoping

/-! ## Tables -/

namespace Table

variable {α β : Type} {key : β → String} {value : β → α} {name : String}

theorem mem_of_get?_foldl {xs : List β} {t : Table α} {v : α}
    (h : (xs.foldl (fun t x => t.insert (key x) (value x)) t).get? name = some v) :
    (∃ x ∈ xs, value x = v) ∨ t.get? name = some v := by
  induction xs generalizing t with
  | nil => exact .inr h
  | cons x rest ih =>
    rcases ih h with ⟨y, hy, hv⟩ | ht
    · exact .inl ⟨y, List.mem_cons_of_mem x hy, hv⟩
    · rw [get?_insert] at ht
      split at ht
      · cases ht
        exact .inl ⟨x, List.mem_cons_self, rfl⟩
      · exact .inr ht

theorem isSome_get?_foldl (key : β → String) (value : β → α) (xs : List β) (t : Table α) :
    ((xs.foldl (fun t x => t.insert (key x) (value x)) t).get? name).isSome = true ↔
      name ∈ xs.map key ∨ (t.get? name).isSome = true := by
  induction xs generalizing t with
  | nil => simp
  | cons x rest ih =>
    rw [List.foldl_cons, ih, get?_insert]
    by_cases h : key x = name
    · simp [h]
    · simp [h, Ne.symm h]

end Table

theorem Closure.mem_of_get?_frame {f : Closure} {args : List Value} {name : String} {v : Value}
    (h : (f.frame args).get? name = some v) : v ∈ args := by
  rcases Table.mem_of_get?_foldl h with ⟨⟨param, arg⟩, hp, rfl⟩ | h
  · exact (List.of_mem_zip hp).2
  · cases h

theorem Closure.isSome_get?_frame {f : Closure} {args : List Value} (hl : args.length = f.arity)
    (name : String) :
    ((f.frame args).get? name).isSome = true ↔ name ∈ f.decl.params.map (·.lexeme) := by
  have hz : (f.decl.params.zip args).map (fun p => p.1.lexeme) = f.decl.params.map (·.lexeme) := by
    calc (f.decl.params.zip args).map (fun p => p.1.lexeme)
        = ((f.decl.params.zip args).map Prod.fst).map (·.lexeme) := by rw [List.map_map]; rfl
      _ = f.decl.params.map (·.lexeme) := by rw [List.map_fst_zip (Nat.le_of_eq hl.symm)]
  refine (Table.isSome_get?_foldl (fun p : Token × Value => p.1.lexeme) Prod.snd _ _).trans ?_
  rw [hz]
  simp

namespace Trace

variable {s s' : State} {sites : List Site} {os : List Outline}

/-! ## Calls -/

/-- The machine as it enters the body of a function. -/
theorem SoundFunction.enter {f : Closure} {args : List Value} {a : Analysis}
    (hg : Good s) (ha : ∀ v ∈ args, Sound s v) (hl : args.length = f.arity)
    (hm : Matches s f.env sites (outlines a.scopes)) (hs : Settled (outlines a.scopes)) :
    Here ((s.enter (.routine f.decl) f.env (f.frame args)).inEnv (s.machine.frames.size :: f.env))
      (.routine f.decl :: sites) (outlines (a.openScope.declareAll f.decl.params).scopes) := by
  have he : After nothing s (s.enter (.routine f.decl) f.env (f.frame args)) :=
    .enter hg fun hv => ha _ (Closure.mem_of_get?_frame hv)
  have hos : outlines (a.openScope.declareAll f.decl.params).scopes =
      (fun x => if x ∈ f.decl.params.map (·.lexeme) then some true else none) :: outlines a.scopes := by
    rw [Analysis.outlines_declareAll, Analysis.outlines_openScope, Outline.bindAll_cons]
    rfl
  rw [hos]
  refine ⟨he.good.inEnv _, ?_, ?_, hs⟩
  · refine (hm.enter fun name hn => ?_).later (.inEnv _ _)
    rw [Closure.isSome_get?_frame hl]
    by_contra hmem
    simp [hmem] at hn
  · intro name hn
    have hb : (s.push (f.frame args)).Binds s.machine.frames.size name := hn
    rw [State.binds_push, if_pos rfl, Closure.isSome_get?_frame hl] at hb
    exact if_pos hb

/-! ## Classes -/

/-- Every method of a class is looked at in the same scopes. -/
theorem visits_of_mem (ctx : Context) (sites : List Site) (a : Analysis) {methods : List Routine}
    {r : Routine} (hr : r ∈ methods) :
    ∃ a', outlines a'.scopes = outlines a.scopes ∧
      ∀ v ∈ r.visits { ctx with routine := methodRole r.name } (.receiver r :: sites) a',
        v ∈ Routine.visitsMethods ctx sites methods a := by
  induction methods generalizing a with
  | nil => cases hr
  | cons r' rest ih =>
    rw [Routine.visitsMethods]
    rcases List.mem_cons.1 hr with rfl | hr
    · exact ⟨a, rfl, fun v hv => List.mem_append_left _ hv⟩
    · obtain ⟨a', ha', hv⟩ := ih (r'.resolve { ctx with routine := methodRole r'.name } a) hr
      exact ⟨a', ha'.trans (Routine.outlines_resolve _ r' a),
        fun v h => List.mem_append_right _ (hv v h)⟩

theorem wellFormed_of_mem {methods : List Routine} {r : Routine}
    (h : Routine.AllWellFormed methods) (hr : r ∈ methods) : r.WellFormed := by
  induction methods with
  | nil => cases hr
  | cons r' rest ih =>
    rcases List.mem_cons.1 hr with rfl | hr
    · exact h.1
    · exact ih h.2 hr

/-- The scope that a class opens around its methods. -/
def thisOutline : Outline := Outline.empty.update "this" true

theorem soundMethod_of_mem {env : Env} {ctx : Context} {a : Analysis} {methods : List Routine}
    {r : Routine} {isInit : Bool} (hw : Routine.AllWellFormed methods)
    (hm : Matches s env sites os) (hs : Settled os) (ha : outlines a.scopes = thisOutline :: os)
    (hk : ∀ v ∈ Routine.visitsMethods ctx sites methods a, Known s.log v) (hr : r ∈ methods) :
    SoundMethod s ⟨r, env, isInit⟩ := by
  obtain ⟨a', ha', hv⟩ := visits_of_mem ctx sites a hr
  refine ⟨wellFormed_of_mem hw hr, _, sites, a', thisOutline, os, ha'.trans ha, ?_, hm, hs,
    fun v h => hk v (hv v h)⟩
  intro name b hb
  by_cases hn : name = "this"
  · rw [thisOutline, Outline.update, if_pos hn] at hb
    cases hb
    exact ⟨hn, rfl⟩
  · rw [thisOutline, Outline.update, if_neg hn] at hb
    cases hb

theorem soundClass_of_methods {ref : Nat} {name : String} {parent : Option Class} {env : Env}
    {methods : List Routine} (hp : ∀ c, parent = some c → SoundClass s c)
    (hm : ∀ r ∈ methods, ∀ b, SoundMethod s ⟨r, env, b⟩) :
    SoundClass s ⟨ref, name, parent, Eval.methodTable env methods⟩ := by
  intro x f hf
  unfold Class.findMethod at hf
  cases ht : (Eval.methodTable env methods).get? x with
  | some g =>
    simp only [ht, Option.some.injEq] at hf
    subst hf
    rcases Table.mem_of_get?_foldl ht with ⟨r, hr, rfl⟩ | h
    · exact hm r hr _
    · cases h
  | none =>
    simp only [ht] at hf
    cases parent with
    | none => cases hf
    | some c => exact hp c rfl x f hf

theorem Yields.defineClass {A : Nat → String → Prop} {name : Token} {parent : Option Class}
    {methods : List Routine} {ctx : Context} {a : Analysis} (hw : Routine.AllWellFormed methods)
    (hp : ∀ c, parent = some c → SoundClass s c)
    (henv : Yields A s (fun env s' => Matches s' env sites os) (Trace.methodEnv parent methods s))
    (hs : Settled os) (ha : outlines a.scopes = thisOutline :: os)
    (hk : ∀ v ∈ Routine.visitsMethods ctx sites methods a, Known s.log v) :
    Yields A s (fun _ _ => True) (Trace.defineClass name parent methods s) := by
  unfold Trace.defineClass
  refine .bind henv fun env s₁ h₁ hm => ?_
  refine .bind (Q := fun _ _ => True) (Quiet.newRef.yields h₁.good fun _ _ _ _ _ => trivial)
    fun ref s₂ h₂ _ => ?_
  have hl := h₁.later.trans h₂.later
  refine .store h₂.good (fun i hi => Frames.isSome_of_holder? hi) ?_
  refine soundClass_of_methods (fun c hc => (hp c hc).later hl) fun r hr b => ?_
  exact soundMethod_of_mem hw (hm.later h₂.later) hs ha (fun v hv => (hk v hv).mono hl.log) hr

theorem Yields.methodEnv_none {A : Nat → String → Prop} (hg : Good s) {methods : List Routine}
    (hm : Matches s s.machine.env sites os) :
    Yields A s (fun env s' => Matches s' env sites os) (Trace.methodEnv none methods s) :=
  ⟨.refl hg, hm⟩

theorem Yields.methodEnv_some {A : Nat → String → Prop} (hg : Good s) {methods : List Routine}
    {parent : Class} (hp : SoundClass s parent) (hm : Matches s s.machine.env sites os) :
    Yields A s (fun env s' => Matches s' env (.parent methods :: sites)
      (Outline.empty.update "super" true :: os)) (Trace.methodEnv (some parent) methods s) := by
  refine ⟨.enter hg fun {name v} hv => ?_, hm.enter fun name hn => ?_⟩
  · rw [Table.eq_of_get?_singleton hv]
    exact hp
  · by_cases h : name = "super"
    · simp [Table.get?, h]
    · rw [Outline.update, if_neg h] at hn
      cases hn

end Trace
end Lox
