import Lox.Proofs.Scope.Steps

/-!
# Places of a running program

The machine is at a place of the program (`Here`) if its environment matches the scopes that the analysis had
open there, and the innermost frame binds no more names than the innermost scope has defined. Then a
reference finds its frame as the analysis has found the scope. Expressions do not leave the
place they are at; a statement takes the machine to the place after it.
-/

namespace Lox
open Scoping

/-! ## Outlines -/

namespace Scoping

/-- The distance of a name, told from the outlines alone. -/
def Outline.distance (name : String) (os : List Outline) : Option Nat :=
  os.findIdx? fun o => (o name).isSome

theorem markUsed_fst (name : String) (scopes : List Scope) :
    (Analysis.markUsed name scopes).map (·.1) = Outline.distance name (outlines scopes) := by
  induction scopes with
  | nil => rfl
  | cons scope rest ih =>
    show _ = (scope.outline :: outlines rest).findIdx? _
    rw [List.findIdx?_cons, ← Outline.distance, ← ih, Analysis.markUsed]
    cases hb : scope.get? name with
    | some b => simp [Scope.outline, hb]
    | none => simp [Scope.outline, hb, Function.comp_def]

theorem Visit.distance_eq_some {v : Visit} {d : Nat} (h : v.distance = some d) :
    Outline.distance v.ref.name.lexeme (outlines v.scopes) = some d := by
  unfold Visit.distance at h
  split at h
  · rwa [markUsed_fst] at h
  · cases h

theorem Visit.initializing_iff {v : Visit} {o : Outline} {os : List Outline}
    (h : outlines v.scopes = o :: os) : v.initializing = false ↔ o v.ref.name.lexeme ≠ some false := by
  unfold Visit.initializing
  cases hs : v.scopes with
  | nil => simp [hs, outlines] at h
  | cons scope rest =>
    simp only [hs, outlines, List.map_cons, List.cons.injEq] at h
    obtain ⟨rfl, -⟩ := h
    cases hb : scope.get? v.ref.name.lexeme <;> simp [Scope.outline, hb]

namespace Outline

@[simp] theorem bindAll_nil (names : List String) : bindAll names [] = [] := by
  induction names with
  | nil => rfl
  | cons name rest ih => exact ih

theorem bindAll_cons (names : List String) (o : Outline) (os : List Outline) :
    bindAll names (o :: os) = (fun x => if x ∈ names then some true else o x) :: os := by
  induction names generalizing o with
  | nil => simp [bindAll]
  | cons name rest ih =>
    show bindAll rest (o.update name true :: os) = _
    rw [ih]
    congr 1
    funext x
    by_cases hx : x = name <;> by_cases hr : x ∈ rest <;> simp [update, hx, hr]

end Outline
end Scoping

namespace Trace

variable {s s' : State} {sites : List Site} {os : List Outline}

theorem Matches.found {env : Env} {name : String} {d : Nat} (h : Matches s env sites os)
    (hd : Outline.distance name os = some d) :
    ∃ i o, env[d]? = some i ∧ os[d]? = some o ∧ (o name).isSome = true ∧
      (o name = some true → s.Binds i name) := by
  induction h generalizing d with
  | globals => cases hd
  | @scope i env site sites o os _ hb _ ih =>
    rw [Outline.distance, List.findIdx?_cons] at hd
    split at hd
    case isTrue ho =>
      cases hd
      exact ⟨i, o, rfl, rfl, ho, hb name⟩
    case isFalse =>
      obtain ⟨d', hd', rfl⟩ := Option.map_eq_some_iff.1 hd
      exact ih hd'

theorem Matches.held {env : Env} {k : Nat} {o : Outline} {name : String} (h : Matches s env sites os)
    (hk : os[k]? = some o) (ho : o name = some true) :
    (s.machine.frames.getAt? env k name).isSome = true := by
  induction h generalizing k with
  | globals => cases hk
  | scope _ hb _ ih =>
    cases k with
    | zero =>
      cases hk
      exact hb name ho
    | succ k => exact ih hk

/-! ## Here -/

/-- The innermost frame binds no name but those that its scope has defined. -/
def Exact (s : State) : Env → List Outline → Prop
  | i :: _, o :: _ => ∀ name, s.Binds i name → o name = some true
  | _, _ => True

/-- The machine is where the analysis had these scopes open. -/
structure Here (s : State) (sites : List Site) (os : List Outline) : Prop where
  good : Good s
  env : Matches s s.machine.env sites os
  exact : Exact s s.machine.env os
  settled : Settled os.tail

theorem Here.after (h : Here s sites os) (ha : After nothing s s') : Here s' sites os where
  good := ha.good
  env := by
    rw [ha.env]
    exact h.env.later ha.later
  exact := by
    rw [ha.env]
    have hx := h.exact
    have hm := h.env
    generalize s.machine.env = env at hx hm
    cases hm with
    | globals => trivial
    | scope he hb hm =>
      intro name hn
      obtain ⟨hpos, hlt⟩ := h.good.entered he
      rcases ha.adds hlt hn with hb | h0 | hf
      · exact hx name hb
      · exact absurd h0 (Nat.ne_of_gt hpos)
      · exact hf.elim
  settled := h.settled

/-- A name that has no value yet is not in the innermost frame. -/
theorem Here.bound {name : String} {d : Nat} (h : Here s sites os)
    (hd : Outline.distance name os = some d) :
    (s.machine.frames.getAt? s.machine.env d name).isSome = true ↔
      ∀ o, os.head? = some o → o name ≠ some false := by
  obtain ⟨i, o, hi, ho, hsome, hb⟩ := h.env.found hd
  have hget : (s.machine.frames.getAt? s.machine.env d name).isSome = true ↔ s.Binds i name := by
    rw [Frames.getAt?, hi]
    rfl
  rw [hget]
  cases d with
  | zero =>
    rw [List.head?_eq_getElem?, ho]
    constructor
    · intro hbound p hp hn
      cases hp
      have hx := h.exact
      cases henv : s.machine.env with
      | nil => simp [henv] at hi
      | cons j env =>
        cases os with
        | nil => cases ho
        | cons p os =>
          simp only [henv, List.getElem?_cons_zero, Option.some.injEq] at hi ho
          subst hi ho
          rw [henv] at hx
          simp [hx name hbound] at hn
    · intro hne
      obtain ⟨b, hbn⟩ := Option.isSome_iff_exists.1 hsome
      cases b with
      | true => exact hb hbn
      | false => exact absurd hbn (hne o rfl)
  | succ d =>
    cases os with
    | nil => cases ho
    | cons p os =>
      -- the name is further out, where all names are settled
      have hmem : o ∈ os := List.mem_of_getElem? ho
      have hp : p name = none := by
        rw [Outline.distance, List.findIdx?_cons] at hd
        split at hd
        · cases hd
        case isFalse hp => simpa using hp
      obtain ⟨b, hbn⟩ := Option.isSome_iff_exists.1 hsome
      have htrue : o name = some true := by
        cases b with
        | true => exact hbn
        | false => exact absurd hbn (h.settled o hmem name)
      simp [hp, hb htrue]

/-! ## References -/

theorem Here.agrees {ref : Reference} {role : ClassRole} {a : Analysis}
    (h : Here s sites (outlines a.scopes)) (hk : Known s.log ⟨ref, role, sites, a.scopes⟩) :
    Agrees s.log ref s.machine ⟨ref, role, sites, a.scopes⟩ where
  known := hk
  about := rfl
  depth := by
    have hl := h.env.length
    rwa [outlines, List.length_map] at hl
  chain := h.env.chain
  distance := by
    obtain ⟨p, d, hp, hv⟩ := hk
    exact (h.good.programs hp).recorded _ hv
  bound d hd := by
    have hfound : Outline.distance ref.name.lexeme (outlines a.scopes) = some d :=
      Visit.distance_eq_some hd
    rw [h.bound hfound]
    cases hos : outlines a.scopes with
    | nil =>
      rw [hos] at hfound
      cases hfound
    | cons o os =>
      rw [Visit.initializing_iff hos]
      simp
  held _ _ _ hk ho := h.env.held hk ho

/-! ## What a machine holds -/

theorem Matches.lt_size {env : Env} (h : Matches s env sites os) (hg : Good s) :
    ∀ i ∈ env, i < s.machine.frames.size := by
  induction h with
  | globals => exact List.forall_mem_singleton.2 hg.size
  | scope he _ _ ih => exact List.forall_mem_cons.2 ⟨(hg.entered he).2, ih⟩

theorem Sound.framed {v : Value} (h : Sound s v) (hg : Good s) : v.Framed s.machine.frames.size := by
  have hclass : ∀ c : Class, SoundClass s c →
      ∀ name f, c.findMethod name = some f → ∀ i ∈ f.env, i < s.machine.frames.size := by
    intro c hc name f hf
    obtain ⟨_, _, _, _, _, _, _, hm, _, _⟩ := (hc name f hf).place
    exact hm.lt_size hg
  cases v with
  | function id f =>
    obtain ⟨_, _, _, hm, _, _⟩ := SoundFunction.place h
    exact hm.lt_size hg
  | classDef c => exact hclass c h
  | object id c => exact hclass c h
  | _ => trivial

/-- A routine whose names were all visited by the analysis. -/
theorem numbered_of_known (hg : Good s) {r : Routine} (hw : r.WellFormed) {ctx : Context} {a : Analysis}
    (hv : ∀ v ∈ r.visits ctx sites a, Known s.log v) : r.Numbered s.machine.nextNode := by
  refine ⟨hw, fun i hi => ?_⟩
  have hmem := (Routine.ids_visits ctx sites r a).mem_iff.2 hi
  obtain ⟨v, hv', rfl⟩ := List.mem_map.1 hmem
  exact (hv v hv').lt_nextNode hg

theorem Sound.numbered {v : Value} (h : Sound s v) (hg : Good s) : v.Numbered s.machine.nextNode := by
  have hclass : ∀ c : Class, SoundClass s c →
      ∀ name f, c.findMethod name = some f → f.decl.Numbered s.machine.nextNode := by
    intro c hc name f hf
    obtain ⟨hw, _, _, _, _, _, -, -, -, -, hv⟩ := hc name f hf
    exact numbered_of_known hg hw hv
  cases v with
  | function id f =>
    obtain ⟨hw, _, _, _, -, -, hv⟩ := h
    exact numbered_of_known hg hw hv
  | classDef c => exact hclass c h
  | object id c => exact hclass c h
  | _ => trivial

theorem Good.numbered (hg : Good s) : s.machine.Numbered where
  frames hr := (hg.frames hr).numbered hg
  fields hr := (hg.fields hr).numbered hg
  fresh := hg.fresh

/-- Wherever a program is, the machine has all its frames. -/
theorem Here.framed (h : Here s sites os) : s.machine.Framed where
  globals := h.good.size
  env := h.env.lt_size h.good
  frames hr := (h.good.frames hr).framed h.good
  fields hr := (h.good.fields hr).framed h.good

/-! ## What is noted -/

theorem note_apply (event : Machine → Event) : note event s = .ok () (s.note (event s.machine)) := rfl

/-- A block or a loop that the machine has come to. -/
theorem Here.begin {A : Nat → String → Prop} {st : Stmt} {ctx : Context} {a : Analysis}
    (h : Here s sites (outlines a.scopes)) (hs : Settled (outlines a.scopes)) (hw : st.WellFormed)
    (hk : ∀ v ∈ st.visits ctx sites a, Known s.log v) : After A s (s.note (.began st s.machine)) := by
  refine .note h.good ⟨ctx, sites, a, ?_⟩
  exact
    { wellFormed := hw
      framed := h.framed
      numbered := h.good.numbered
      known := hk
      recorded := fun v hv => ⟨(hk v hv).lt_nextNode h.good, (hk v hv).recorded h.good⟩
      depth := by simpa [outlines] using h.env.length
      chain := h.env.chain
      settled := hs
      held := fun _ _ _ hk ho => h.env.held hk ho }

section references

variable {ref : Reference} {role : ClassRole} {a : Analysis} (h : Here s sites (outlines a.scopes))
  (hk : Known s.log ⟨ref, role, sites, a.scopes⟩)
include h hk

theorem Here.refer {A : Nat → String → Prop} : After A s (s.note (.referred ref s.machine)) :=
  .note h.good ⟨_, h.agrees hk⟩

theorem Here.lookUp : Yields nothing s (fun v s' => Sound s' v) (Trace.lookUp ref s) := by
  unfold Trace.lookUp
  rw [Ending.bind_ok (note_apply _)]
  have ha : After nothing s (s.note (.referred ref s.machine)) := h.refer hk
  refine .after ha ((Quiet.lookUp ref.id ref.name).yields ha.good fun v s' m ha' hv => ?_)
  exact (sound_of_lookUp ha.good hv).later ha'.later

theorem Here.assign {v : Value} (hv : Sound s v) :
    Yields nothing s (fun _ _ => True) (Trace.assign ref v s) := by
  unfold Trace.assign
  rw [Ending.bind_ok (note_apply _)]
  have ha : After nothing s (s.note (.referred ref s.machine)) := h.refer hk
  refine .after ha (.store ha.good (fun i hi => ?_) (hv.later ha.later))
  split at hi
  · exact Frames.isSome_of_holderAt? hi
  · exact Frames.isSome_of_holder? hi

end references

theorem Here.superMethod {id : Nat} {keyword : Token} (method : Token) {role : ClassRole}
    {a : Analysis} (h : Here s sites (outlines a.scopes))
    (hk : Known s.log ⟨⟨.parent, id, keyword⟩, role, sites, a.scopes⟩) :
    Yields nothing s (fun v s' => Sound s' v) (Trace.superMethod id keyword method s) := by
  unfold Trace.superMethod
  rw [Ending.bind_ok (note_apply _)]
  have ha : After nothing s (s.note (.referred ⟨.parent, id, keyword⟩ s.machine)) := h.refer hk
  refine .after ha ?_
  generalize s.note _ = s at ha
  rw [Ending.bind_ok lift_get_apply]
  have hg := ha.good
  cases hd : s.machine.distances[id]? with
  | none => exact .fail hg _ _
  | some d =>
    dsimp only
    cases hp : s.machine.frames.getAt? s.machine.env d "super" with
    | none => exact .fail hg _ _
    | some v =>
      have hv : Sound s v := sound_of_getAt? hg hp
      cases v with
      | classDef parent =>
        dsimp only
        cases hc : s.machine.frames.getAt? s.machine.env (d - 1) "this" with
        | none => exact .fail hg _ _
        | some w =>
          have hw : Sound s w := sound_of_getAt? hg hc
          cases w with
          | object obj c =>
            dsimp only
            cases hf : parent.findMethod method.lexeme with
            | none => exact .fail hg _ _
            | some f => exact .method hg hw (hv _ f hf)
          | _ => exact .fail hg _ _
      | _ => exact .fail hg _ _

/-! ## The next place -/

/-- A statement adds these names to the innermost frame. -/
def adds (env : Env) (names : List String) : Nat → String → Prop :=
  fun i name => env.head? = some i ∧ name ∈ names

/-- The innermost frame binds these names. -/
def Bound (s : State) (env : Env) (names : List String) : Prop :=
  ∀ i, env.head? = some i → ∀ name ∈ names, s.Binds i name

theorem Bound.later {env : Env} {names : List String} (h : Bound s env names) (hl : Later s s') :
    Bound s' env names :=
  fun i hi name hn => hl.binds (h i hi name hn)

theorem Settled.bindAll (h : Settled os) (names : List String) :
    Settled (Outline.bindAll names os) := by
  cases os with
  | nil => rwa [Outline.bindAll_nil]
  | cons o os =>
    rw [Outline.bindAll_cons]
    intro p hp name
    rcases List.mem_cons.1 hp with rfl | hp
    · simp only
      split
      · simp
      · exact h o List.mem_cons_self name
    · exact h p (List.mem_cons_of_mem o hp) name

theorem Here.next {names : List String} (h : Here s sites os)
    (ha : After (adds s.machine.env names) s s') (hb : Bound s' s.machine.env names) :
    Here s' sites (Outline.bindAll names os) := by
  obtain ⟨hg, hm, hx, hs⟩ := h
  have henv := ha.env
  refine ⟨ha.good, ?_, ?_, by rwa [Outline.bindAll_tail]⟩
  · rw [henv]
    generalize s.machine.env = env at hm hb
    cases hm with
    | globals =>
      rw [Outline.bindAll_nil]
      exact .globals
    | scope he ho hm =>
      rw [Outline.bindAll_cons]
      refine .scope (ha.later.log.subset he) (fun name hn => ?_) (hm.later ha.later)
      by_cases hmem : name ∈ names
      · exact hb _ rfl name hmem
      · rw [if_neg hmem] at hn
        exact ha.later.binds (ho name hn)
  · rw [henv]
    generalize s.machine.env = env at hm hx
    cases hm with
    | globals =>
      rw [Outline.bindAll_nil]
      trivial
    | scope he ho hm =>
      rw [Outline.bindAll_cons]
      intro name hn
      obtain ⟨hpos, hlt⟩ := hg.entered he
      rcases ha.adds hlt hn with hn | h0 | ⟨-, hmem⟩
      · simp [hx name hn]
      · exact absurd h0 (Nat.ne_of_gt hpos)
      · simp [hmem]

/-- In its initializer a name is declared and has no value. -/
theorem Here.declare (h : Here s sites os) (name : String) :
    Here s sites (Outline.declare name os) := by
  obtain ⟨hg, hm, hx, hs⟩ := h
  cases os with
  | nil => exact ⟨hg, hm, hx, hs⟩
  | cons o os =>
    have ho : ∀ x, (if (o name).isSome then o else o.update name false) x = some true ↔
        o x = some true := by
      intro x
      split
      · rfl
      case isFalse hn =>
        by_cases hx : x = name
        · subst hx
          simp only [Outline.update, if_true]
          cases hox : o x <;> simp_all
        · simp [Outline.update, hx]
    refine ⟨hg, ?_, ?_, hs⟩
    · generalize s.machine.env = env at hm
      cases hm with
      | scope he hb hm => exact .scope he (fun x hn => hb x ((ho x).1 hn)) hm
    · generalize s.machine.env = env at hm hx
      cases hm with
      | scope he hb hm => exact fun x hn => (ho x).2 (hx x hn)

theorem Matches.head {env : Env} (hg : Good s) (h : Matches s env sites os) :
    ∃ i outer, env = i :: outer ∧ i < s.machine.frames.size := by
  cases h with
  | globals => exact ⟨0, [], rfl, hg.size⟩
  | scope he _ _ => exact ⟨_, _, rfl, (hg.entered he).2⟩

/-- A value may need the name that it is given: a function can call itself. -/
theorem Here.define (h : Here s sites os) (name : String) {v : Value}
    (hv : ∀ s', Later s s' → Matches s' s.machine.env sites (Outline.bind name os) → Sound s' v) :
    Yields (adds s.machine.env [name]) s (fun _ s' => Bound s' s.machine.env [name])
      (lift (Eval.define name v) s) := by
  obtain ⟨i, outer, henv, hi⟩ := h.env.head h.good
  have hd : Eval.define name v s.machine =
      .ok () { s.machine with frames := s.machine.frames.define i name v } := by
    unfold Eval.define
    split <;> simp_all
  have hb : Bound (s.define i name v) s.machine.env [name] := by
    intro j hj x hx
    rw [henv] at hj
    cases hj
    rw [List.mem_singleton.1 hx]
    exact (State.binds_define hi).2 (.inr ⟨rfl, rfl⟩)
  have hm : Matches (s.define i name v) s.machine.env sites (Outline.bind name os) := by
    have hm := h.env.later (Unlogged.define hi name v).later
    revert hm hb
    rw [henv]
    intro hb hm
    cases hm with
    | globals => exact .globals
    | scope he ho hm =>
      refine .scope he (fun x hx => ?_) hm
      by_cases hxn : x = name
      · exact hb i rfl x (List.mem_singleton.2 hxn)
      · exact ho x (by simpa [Outline.update, hxn] using hx)
  rw [lift_ok hd]
  refine ⟨.define h.good hi (hv _ (Unlogged.define hi name v).later hm) (.inr (.inr ⟨?_, ?_⟩)), hb⟩
  · rw [henv]
    rfl
  · exact List.mem_singleton.2 rfl

end Trace
end Lox
