import Lox.Proofs.Scope.Invariant

/-!
# What a step does to good states

Most steps leave frames and fields alone (`Quiet`). The others define a name, set a field, make an object or a frame,
log a reference or accept a program. Each leads from a good state to a good one, given that the values
it stores are sound.
-/

namespace Lox
open Scoping

/-! ## Fields -/

/-- What is read from a field after one was set was there or is what was set. -/
theorem Machine.get?_of_setField {m : Machine} {id j : Nat} {name other : String} {v w : Value}
    (h : (((m.objects.modify id (·.insert name v))[j]?).getD []).get? other = some w) :
    v = w ∨ (m.fields j).get? other = some w := by
  rw [Array.getElem?_modify] at h
  split at h
  case isTrue hj =>
    subst hj
    cases ho : m.objects[id]? with
    | none => simp [ho] at h
    | some table =>
      simp only [ho, Option.map_some, Option.getD_some, Table.get?_insert] at h
      split at h
      · exact .inl (Option.some.inj h)
      · refine .inr ?_
        rw [Machine.fields, ho]
        exact h
  case isFalse => exact .inr h

/-- A new object has no fields. -/
theorem Machine.get?_of_newObject {m : Machine} {j : Nat} {name : String} {w : Value}
    (h : (((m.objects.push [])[j]?).getD []).get? name = some w) : (m.fields j).get? name = some w := by
  rw [Array.getElem?_push] at h
  split at h
  · simp at h
  · exact h

namespace Trace

/-! ## Steps without an event -/

/-- Only frames, fields and such parts of the machine that matter to no value change. -/
structure Unlogged (s s' : State) : Prop where
  log : s'.log = s.log
  env : s'.machine.env = s.machine.env
  distances : s'.machine.distances = s.machine.distances
  nextNode : s'.machine.nextNode = s.machine.nextNode
  size : s.machine.frames.size ≤ s'.machine.frames.size
  binds : ∀ {i name}, s.Binds i name → s'.Binds i name

namespace Unlogged

variable {s s' : State}

theorem later (h : Unlogged s s') : Later s s' where
  log := h.log ▸ List.suffix_refl _
  size := h.size
  binds := h.binds
  nextNode := Nat.le_of_eq h.nextNode.symm
  distances _ := by rw [h.distances]

/-- What is left to show is that the values are sound. -/
theorem good (h : Unlogged s s') (hg : Good s)
    (frames : ∀ {i name v}, s'.machine.frames.read i name = some v → Sound s' v)
    (fields : ∀ {id name v}, (s'.machine.fields id).get? name = some v → Sound s' v) :
    Good s' where
  frames := frames
  fields := fields
  size := Nat.lt_of_lt_of_le hg.size h.size
  fresh hid := by
    rw [h.distances]
    exact hg.fresh (by rwa [h.nextNode] at hid)
  programs hp := (hg.programs (h.log ▸ hp)).later h.later
  apart hp hp' := hg.apart (h.log ▸ hp) (h.log ▸ hp')
  entered he := (hg.entered (h.log ▸ he)).imp_right fun hi => Nat.lt_of_lt_of_le hi h.size
  once he he' := hg.once (h.log ▸ he) (h.log ▸ he')
  referred hr := by
    rw [h.log]
    exact hg.referred (h.log ▸ hr)
  began hb := by
    rw [h.log]
    exact hg.began (h.log ▸ hb)

end Unlogged

/-- The parts of the machine that soundness looks at are the same. -/
structure Same (m m' : Machine) : Prop where
  frames : m'.frames = m.frames
  objects : m'.objects = m.objects
  env : m'.env = m.env
  distances : m'.distances = m.distances
  nextNode : m'.nextNode = m.nextNode

theorem Same.after {A : Nat → String → Prop} {s : State} {m : Machine} (h : Same s.machine m)
    (hg : Good s) : After A s { s with machine := m } := by
  have hu : Unlogged s { s with machine := m } :=
    { log := rfl, env := h.env, distances := h.distances, nextNode := h.nextNode,
      size := Nat.le_of_eq (congrArg Array.size h.frames.symm)
      binds := fun hb => by rwa [State.Binds, h.frames] }
  refine ⟨hu.later, hu.good hg (fun hr => ?_) (fun hr => ?_), h.env, fun _ hb => .inl ?_⟩
  · exact (hg.frames (by rwa [h.frames] at hr)).later hu.later
  · exact (hg.fields (by rwa [Machine.fields, h.objects] at hr)).later hu.later
  · rwa [State.Binds, h.frames] at hb

/-- A computation that changes nothing that matters. -/
def Quiet {α : Type} (act : Eval α) : Prop := ∀ m, Same m (Ending.state (act m))

theorem Quiet.yields {α : Type} {A : Nat → String → Prop} {act : Eval α} (h : Quiet act) {s : State}
    (hg : Good s) {Q : α → State → Prop}
    (hq : ∀ a s' m, After A s s' → act s.machine = .ok a m → Q a s') :
    Yields A s Q (lift act s) := by
  have hs := h s.machine
  unfold lift
  cases hact : act s.machine with
  | ok a m =>
    rw [hact] at hs
    exact ⟨hs.after hg, hq a _ m (hs.after hg) hact⟩
  | error e m =>
    rw [hact] at hs
    exact hs.after hg

/-! ## Steps that change values -/

variable {s : State}

def State.define (s : State) (i : Nat) (name : String) (v : Value) : State :=
  { s with machine := { s.machine with frames := s.machine.frames.define i name v } }

theorem State.binds_define {i : Nat} (hi : i < s.machine.frames.size) {name : String} {v : Value}
    {j : Nat} {other : String} :
    (s.define i name v).Binds j other ↔ s.Binds j other ∨ (i = j ∧ name = other) := by
  unfold State.Binds State.define
  rw [Frames.read_define _ hi]
  split
  case isTrue h => simp [h]
  case isFalse h => simp [h]

theorem Unlogged.define {i : Nat} (hi : i < s.machine.frames.size) (name : String) (v : Value) :
    Unlogged s (s.define i name v) where
  log := rfl
  env := rfl
  distances := rfl
  nextNode := rfl
  size := Nat.le_of_eq (Frames.size_define _ _ _ _).symm
  binds hb := (State.binds_define hi).2 (.inl hb)

/-- A value may be sound only once its name is bound. -/
theorem Good.define (hg : Good s) {i : Nat} (hi : i < s.machine.frames.size) {name : String}
    {v : Value} (hv : Sound (s.define i name v) v) : Good (s.define i name v) := by
  have hu := Unlogged.define hi name v
  refine hu.good hg (fun hr => ?_) (fun hr => (hg.fields hr).later hu.later)
  rw [State.define, Frames.read_define _ hi] at hr
  split at hr
  case isTrue =>
    cases hr
    exact hv
  case isFalse => exact (hg.frames hr).later hu.later

theorem After.define (hg : Good s) {i : Nat} (hi : i < s.machine.frames.size) {name : String}
    {v : Value} (hv : Sound (s.define i name v) v) {A : Nat → String → Prop}
    (hA : s.Binds i name ∨ i = 0 ∨ A i name) : After A s (s.define i name v) where
  later := (Unlogged.define hi name v).later
  good := hg.define hi hv
  env := rfl
  adds _ hb := by
    rcases (State.binds_define hi).1 hb with hb | ⟨rfl, rfl⟩
    · exact .inl hb
    · exact hA

def State.withObjects (s : State) (objects : Array (Table Value)) : State :=
  { s with machine := { s.machine with objects := objects } }

theorem After.withObjects {A : Nat → String → Prop} (hg : Good s) {objects : Array (Table Value)}
    (ho : ∀ {id : Nat} {name : String} {v : Value},
      ((objects[id]?).getD []).get? name = some v → Sound s v) :
    After A s (s.withObjects objects) := by
  have hu : Unlogged s (s.withObjects objects) :=
    ⟨rfl, rfl, rfl, rfl, Nat.le_refl _, id⟩
  exact ⟨hu.later, hu.good hg (fun hr => (hg.frames hr).later hu.later)
    (fun hr => (ho hr).later hu.later), rfl, fun _ hb => .inl hb⟩

theorem After.setField {A : Nat → String → Prop} (hg : Good s) (id : Nat) (name : String)
    {v : Value} (hv : Sound s v) :
    After A s (s.withObjects (s.machine.objects.modify id (·.insert name v))) := by
  refine .withObjects hg fun hw => ?_
  rcases Machine.get?_of_setField hw with rfl | hw
  · exact hv
  · exact hg.fields hw

theorem After.newObject {A : Nat → String → Prop} (hg : Good s) :
    After A s (s.withObjects (s.machine.objects.push [])) :=
  .withObjects hg fun hw => hg.fields (Machine.get?_of_newObject hw)

/-! ## Steps with an event -/

/-- What makes an event a good one. -/
def Fits (s : State) : Event → Prop
  | .accepted p d => Loaded s.machine p d ∧
    ∀ p' d' id, .accepted p' d' ∈ s.log → id ∈ Stmt.nodesAll p → id ∉ Stmt.nodesAll p'
  | .entered _ _ i => 0 < i ∧ i < s.machine.frames.size ∧ ∀ site env, .entered site env i ∉ s.log
  | .referred ref m => ∃ v, Agrees s.log ref m v
  | .began st m => ∃ ctx sites a, Stands s.log st m ctx sites a

def State.note (s : State) (event : Event) : State := { s with log := event :: s.log }

theorem Later.note (event : Event) : Later s (s.note event) :=
  ⟨List.suffix_cons _ _, Nat.le_refl _, id, Nat.le_refl _, fun _ => rfl⟩

theorem Good.note (hg : Good s) {event : Event} (h : Fits s event) : Good (s.note event) where
  frames hr := (hg.frames hr).later (.note event)
  fields hr := (hg.fields hr).later (.note event)
  size := hg.size
  fresh := hg.fresh
  programs hp := by
    rcases List.mem_cons.1 hp with rfl | hp
    · exact h.1
    · exact hg.programs hp
  apart hp hp' hid hid' := by
    rcases List.mem_cons.1 hp with rfl | hm
    · rcases List.mem_cons.1 hp' with hm' | hm'
      · cases hm'
        exact ⟨rfl, rfl⟩
      · exact absurd hid' (h.2 _ _ _ hm' hid)
    · rcases List.mem_cons.1 hp' with rfl | hm'
      · exact absurd hid (h.2 _ _ _ hm hid')
      · exact hg.apart hm hm' hid hid'
  entered he := by
    rcases List.mem_cons.1 he with rfl | hm
    · exact ⟨h.1, h.2.1⟩
    · exact hg.entered hm
  once he he' := by
    rcases List.mem_cons.1 he with rfl | hm
    · rcases List.mem_cons.1 he' with hm' | hm'
      · cases hm'
        exact ⟨rfl, rfl⟩
      · exact absurd hm' (h.2.2 _ _)
    · rcases List.mem_cons.1 he' with rfl | hm'
      · exact absurd hm (h.2.2 _ _)
      · exact hg.once hm hm'
  referred {ref m} hr := by
    have hv : ∃ v, Agrees s.log ref m v := by
      rcases List.mem_cons.1 hr with rfl | hm
      · exact h
      · exact hg.referred hm
    exact hv.imp fun v hv => hv.mono (List.suffix_cons _ _)
  began {st m} hb := by
    have hst : ∃ ctx sites a, Stands s.log st m ctx sites a := by
      rcases List.mem_cons.1 hb with rfl | hm
      · exact h
      · exact hg.began hm
    obtain ⟨ctx, sites, a, hst⟩ := hst
    exact ⟨ctx, sites, a, hst.mono (List.suffix_cons _ _)⟩

theorem After.note {A : Nat → String → Prop} (hg : Good s) {event : Event} (h : Fits s event) :
    After A s (s.note event) :=
  ⟨.note event, hg.note h, rfl, fun _ hb => .inl hb⟩

/-- One frame more. -/
def State.push (s : State) (frame : Frame) : State :=
  { s with machine := { s.machine with frames := s.machine.frames.add frame } }

theorem State.binds_push {frame : Frame} {i : Nat} {name : String} :
    (s.push frame).Binds i name ↔
      if i = s.machine.frames.size then (frame.get? name).isSome = true else s.Binds i name := by
  unfold State.Binds State.push
  rw [Frames.read_add]
  split <;> rfl

theorem State.size_push (s : State) (frame : Frame) :
    (s.push frame).machine.frames.size = s.machine.frames.size + 1 :=
  Frames.size_add _ _

theorem Unlogged.push (frame : Frame) : Unlogged s (s.push frame) where
  log := rfl
  env := rfl
  distances := rfl
  nextNode := rfl
  size := by
    rw [State.size_push]
    exact Nat.le_succ _
  binds hb := by
    obtain ⟨v, hv⟩ := Option.isSome_iff_exists.1 hb
    rwa [State.binds_push, if_neg (Nat.ne_of_lt (Frames.lt_size_of_read hv))]

theorem After.push {A : Nat → String → Prop} (hg : Good s) {frame : Frame}
    (hf : ∀ {name v}, frame.get? name = some v → Sound s v) : After A s (s.push frame) := by
  have hu : Unlogged s (s.push frame) := .push frame
  refine ⟨hu.later, hu.good hg (fun hr => ?_) (fun hr => (hg.fields hr).later hu.later), rfl,
    fun hi hb => .inl ?_⟩
  · rw [State.push, Frames.read_add] at hr
    split at hr
    · exact (hf hr).later hu.later
    · exact (hg.frames hr).later hu.later
  · rwa [State.binds_push, if_neg (Nat.ne_of_lt hi)] at hb

/-- A new frame for a piece of the program. -/
def State.enter (s : State) (site : Site) (outer : Env) (frame : Frame) : State :=
  (s.push frame).note (.entered site outer s.machine.frames.size)

theorem extend_apply (site : Site) (outer : Env) (frame : Frame) :
    extend site outer frame s = .ok (s.machine.frames.size :: outer) (s.enter site outer frame) :=
  rfl

theorem After.enter {A : Nat → String → Prop} (hg : Good s) {site : Site} {outer : Env}
    {frame : Frame} (hf : ∀ {name v}, frame.get? name = some v → Sound s v) :
    After A s (s.enter site outer frame) := by
  have hp : After A s (s.push frame) := .push hg hf
  refine hp.trans (.note hp.good ⟨hg.size, ?_, fun site' env' he => ?_⟩)
  · rw [State.size_push]
    exact Nat.lt_succ_self _
  · exact Nat.lt_irrefl _ (hg.entered he).2

theorem Matches.enter {site : Site} {frame : Frame} {env : Env} {sites : List Site} {o : Outline}
    {os : List Outline} (hm : Matches s env sites os)
    (ho : ∀ name, o name = some true → (frame.get? name).isSome = true) :
    Matches (s.enter site env frame) (s.machine.frames.size :: env) (site :: sites) (o :: os) := by
  refine .scope List.mem_cons_self (fun name hn => ?_) ?_
  · show (s.push frame).Binds _ name
    rw [State.binds_push, if_pos rfl]
    exact ho name hn
  · exact hm.later ((Unlogged.push frame).later.trans (.note _))

/-! ## Programs -/

/-- Whether or not a text can be run, what is on record stays. -/
structure Compiled (m m' : Machine) : Prop where
  frames : m'.frames = m.frames
  objects : m'.objects = m.objects
  env : m'.env = m.env
  nextNode : m.nextNode ≤ m'.nextNode
  distances : ∀ {id}, id < m.nextNode ∨ m'.nextNode ≤ id → m'.distances[id]? = m.distances[id]?

theorem compiled (m : Machine) (source : String) : Compiled m (m.compile source).2 := by
  have hn := Stmt.read_nextId source m.nextNode
  unfold Machine.compile
  cases hr : Stmt.read source m.nextNode with
  | mk result nextNode =>
    rw [hr] at hn
    cases result with
    | error es => exact ⟨rfl, rfl, rfl, hn, fun _ => rfl⟩
    | ok program =>
      have hc : Compiled m { m with
          nextNode := nextNode, distances := (Stmt.analyse program m.distances).distances } := by
        refine ⟨rfl, rfl, rfl, hn, fun {id} hid => ?_⟩
        refine Stmt.getElem?_analyse_of_not_mem (fun hm => ?_) m.distances
        have hlow := (Stmt.read_sound hr).2.low_le id hm
        have hhigh := (Stmt.read_sound hr).2.lt_high id hm
        rcases hid with hid | hid
        · exact Nat.not_lt_of_le hlow hid
        · exact Nat.not_lt_of_le hid hhigh
      simp only [Machine.analyse]
      cases he : (Stmt.analyse program m.distances).errors with
      | nil => exact hc
      | cons e rest => exact hc

theorem Compiled.after {A : Nat → String → Prop} {m : Machine} (h : Compiled s.machine m)
    (hg : Good s) : After A s { s with machine := m } := by
  have hl : Later s { s with machine := m } :=
    { log := List.suffix_refl _, nextNode := h.nextNode
      size := Nat.le_of_eq (congrArg Array.size h.frames.symm)
      binds := fun hb => by rwa [State.Binds, h.frames]
      distances := fun hid => h.distances (.inl hid) }
  refine ⟨hl, ?_, h.env, fun _ hb => .inl (by rwa [State.Binds, h.frames] at hb)⟩
  exact
    { frames := fun hr => (hg.frames (by rwa [h.frames] at hr)).later hl
      fields := fun hr => (hg.fields (by rwa [Machine.fields, h.objects] at hr)).later hl
      size := Nat.lt_of_lt_of_le hg.size hl.size
      fresh := fun hid =>
        (h.distances (.inr hid)).trans (hg.fresh (Nat.le_trans h.nextNode hid))
      programs := fun hp => (hg.programs hp).later hl
      apart := hg.apart
      entered := fun he => (hg.entered he).imp_right fun hi => Nat.lt_of_lt_of_le hi hl.size
      once := hg.once
      referred := hg.referred
      began := hg.began }

/-- A program that passed is on record, and its identities are new. -/
theorem loaded_of_compile {m m' : Machine} (hf : ∀ {id}, m.nextNode ≤ id → m.distances[id]? = none)
    {source : String} {program : List Stmt} {warnings : List Warning}
    (h : m.compile source = (.ok (program, warnings), m')) :
    Loaded m' program m.distances ∧ ∀ id ∈ Stmt.nodesAll program, m.nextNode ≤ id := by
  obtain ⟨next, hr, he, -, rfl⟩ := Machine.compile_eq_ok.1 h
  obtain ⟨hw, hfresh⟩ := Stmt.read_sound hr
  refine ⟨⟨hw, Stmt.read_regular hr, he, hfresh.nodup, hfresh.lt_high, fun v hv => ?_⟩, hfresh.low_le⟩
  exact Stmt.getElem?_analyse hv hfresh.nodup fun id hid => hf (hfresh.low_le id hid)

/-- A program is accepted, and its warnings may wait to be reported. -/
theorem After.accept {A : Nat → String → Prop} (hg : Good s) {m m' : Machine} {source : String}
    {program : List Stmt} {warnings : List Warning}
    (h : s.machine.compile source = (.ok (program, warnings), m)) (hs : Same m m') :
    After A s (State.note { s with machine := m' } (.accepted program s.machine.distances)) := by
  have hc : Compiled s.machine m := by
    have hc := compiled s.machine source
    rwa [h] at hc
  have hm : After A s { s with machine := m } := hc.after hg
  have hm' : After A { s with machine := m } { s with machine := m' } := hs.after hm.good
  obtain ⟨hl, hid⟩ := loaded_of_compile hg.fresh h
  have hl' : Loaded m' program s.machine.distances := Loaded.later (s := { s with machine := m }) hl hm'.later
  refine (hm.trans hm').trans (.note hm'.good ⟨hl', fun p d id hp hmem hmem' => ?_⟩)
  exact Nat.not_lt_of_le (hid id hmem) ((hg.programs hp).lt_nextNode id hmem')

/-! ## Computations -/

namespace Quiet

variable {α β : Type}

theorem pure (a : α) : Quiet (Pure.pure a : Eval α) := fun _ => ⟨rfl, rfl, rfl, rfl, rfl⟩

theorem fail (t : Token) (fault : RuntimeFault) : Quiet (Eval.fail t fault : Eval α) :=
  fun _ => ⟨rfl, rfl, rfl, rfl, rfl⟩

theorem newRef : Quiet Eval.newRef := fun _ => ⟨rfl, rfl, rfl, rfl, rfl⟩

theorem newFunction (f : Closure) : Quiet (Eval.newFunction f) := fun _ => ⟨rfl, rfl, rfl, rfl, rfl⟩

theorem request (path : String) : Quiet (Eval.request path) := fun _ => ⟨rfl, rfl, rfl, rfl, rfl⟩

theorem writeLine (text : String) : Quiet (Eval.writeLine text) := by
  intro m
  unfold Eval.writeLine
  split <;> exact ⟨rfl, rfl, rfl, rfl, rfl⟩

theorem flush : Quiet Eval.flush := by
  intro m
  unfold Eval.flush
  split <;> exact ⟨rfl, rfl, rfl, rfl, rfl⟩

theorem unaryOp (op : Token) (v : Value) : Quiet (Eval.unaryOp op v) := by
  unfold Eval.unaryOp
  split
  · split
    · exact pure _
    · exact fail _ _
  · exact pure _
  · exact fail _ _

theorem numeric (op : Token) (v w : Value) (f : Float → Float → Value) :
    Quiet (Eval.numeric op v w f) := by
  unfold Eval.numeric
  split
  · exact pure _
  · exact fail _ _

theorem add (op : Token) (v w : Value) : Quiet (Eval.add op v w) := by
  unfold Eval.add
  split
  · exact pure _
  · exact pure _
  · exact pure _
  · exact fail _ _

theorem binaryOp (op : Token) (v w : Value) : Quiet (Eval.binaryOp op v w) := by
  unfold Eval.binaryOp
  split
  · exact add _ _ _
  case h_9 => exact pure _
  case h_10 => exact pure _
  case h_11 => exact fail _ _
  all_goals exact numeric _ _ _ _

theorem lookUp (id : Nat) (name : Token) : Quiet (Eval.lookUp id name) := by
  intro m
  unfold Eval.lookUp
  simp only
  split <;> exact ⟨rfl, rfl, rfl, rfl, rfl⟩

theorem callNative (host : Host) (paren : Token) (f : Native) (args : List Value) :
    Quiet (Eval.callNative host paren f args) := by
  intro m
  unfold Eval.callNative
  split
  · exact ⟨rfl, rfl, rfl, rfl, rfl⟩
  · split
    · exact ⟨rfl, rfl, rfl, rfl, rfl⟩
    · split <;> exact ⟨rfl, rfl, rfl, rfl, rfl⟩

end Quiet

/-! ### Values that computations give -/

theorem sound_ofLiteral (v : Literal) : Sound s (.ofLiteral v) := by
  cases v <;> trivial

/-- A computation that gives only values of a kind. -/
def Gives {α : Type} (P : α → Prop) (act : Eval α) : Prop :=
  ∀ {m m' : Machine} {a : α}, act m = .ok a m' → P a

namespace Gives

variable {α : Type} {P : α → Prop}

theorem pure {a : α} (h : P a) : Gives P (Pure.pure a : Eval α) := by
  rintro m m' b ⟨⟩
  exact h

theorem fail (t : Token) (fault : RuntimeFault) : Gives P (Eval.fail t fault : Eval α) := nofun

theorem unaryOp (op : Token) (v : Value) : Gives (Sound s) (Eval.unaryOp op v) := by
  unfold Eval.unaryOp
  split
  · split
    · exact pure trivial
    · exact fail _ _
  · exact pure trivial
  · exact fail _ _

theorem numeric (op : Token) (v w : Value) {f : Float → Float → Value}
    (hf : ∀ x y, Sound s (f x y)) : Gives (Sound s) (Eval.numeric op v w f) := by
  unfold Eval.numeric
  split
  · exact pure (hf _ _)
  · exact fail _ _

theorem add (op : Token) (v w : Value) : Gives (Sound s) (Eval.add op v w) := by
  unfold Eval.add
  split
  · exact pure trivial
  · exact pure trivial
  · exact pure trivial
  · exact fail _ _

theorem binaryOp (op : Token) (v w : Value) : Gives (Sound s) (Eval.binaryOp op v w) := by
  unfold Eval.binaryOp
  split
  case h_1 => exact add op v w
  case h_9 => exact pure trivial
  case h_10 => exact pure trivial
  case h_11 => exact fail _ _
  all_goals exact numeric op v w fun _ _ => by trivial

end Gives

theorem sound_of_getAt? (hg : Good s) {env : Env} {d : Nat} {name : String} {v : Value}
    (h : s.machine.frames.getAt? env d name = some v) : Sound s v := by
  obtain ⟨i, -, hi⟩ := Frames.read_of_getAt? h
  exact hg.frames hi

theorem sound_of_get? (hg : Good s) {env : Env} {name : String} {v : Value}
    (h : s.machine.frames.get? env name = some v) : Sound s v := by
  rw [Frames.get?_eq_holder?_bind] at h
  obtain ⟨i, -, hv⟩ := Option.bind_eq_some_iff.1 h
  exact hg.frames hv

theorem sound_of_lookUp (hg : Good s) {id : Nat} {name : Token} {v : Value} {m : Machine}
    (h : Eval.lookUp id name s.machine = .ok v m) : Sound s v := by
  unfold Eval.lookUp at h
  simp only at h
  split at h
  case h_1 w hw =>
    cases h
    split at hw
    · exact sound_of_getAt? hg hw
    · exact sound_of_get? hg hw
  case h_2 => cases h

end Trace

/-! ### The host -/

/-- What a function of the host can give without making closures: plain values, its arguments, and
what it finds in the machine. -/
inductive Machine.Offers (m : Machine) (args : List Value) : Value → Prop
  | nil : Offers m args .nil
  | bool (b : Bool) : Offers m args (.bool b)
  | number (x : Float) : Offers m args (.number x)
  | string (s : String) : Offers m args (.string s)
  | native (f : Native) : Offers m args (.native f)
  | argument {v : Value} : v ∈ args → Offers m args v
  | bound {i : Nat} {name : String} {v : Value} : m.frames.read i name = some v → Offers m args v
  | field {id : Nat} {name : String} {v : Value} : (m.fields id).get? name = some v → Offers m args v
  | object (id : Nat) {c : Class} : Offers m args (.classDef c) → Offers m args (.object id c)
  | classDef {id : Nat} {c : Class} : Offers m args (.object id c) → Offers m args (.classDef c)

/-- Only globals may have changed, and to values that the machine offers. -/
structure Machine.OnlyGlobals (m m' : Machine) : Prop where
  objects : m'.objects = m.objects
  env : m'.env = m.env
  distances : m'.distances = m.distances
  nextNode : m'.nextNode = m.nextNode
  size : m'.frames.size = m.frames.size
  locals : ∀ i name, i ≠ globalFrame → m'.frames.read i name = m.frames.read i name
  kept : ∀ name, (m.global? name).isSome = true → (m'.global? name).isSome = true
  offered : ∀ name v, m'.global? name = some v → m.Offers [] v

/-- A host that makes no closures of its own. A loader of its own may define globals. -/
structure Host.Honest (host : Host) : Prop where
  functions : ∀ f ∈ host.functions, ∀ m args v, f.run m args = .ok v → m.Offers args v
  loader : ∀ f, host.loader = .custom f → ∀ path m, Machine.OnlyGlobals m (f path m).2

namespace Trace

theorem Sound.of_offers (hg : Good s) {args : List Value} (ha : ∀ v ∈ args, Sound s v) {v : Value}
    (h : s.machine.Offers args v) : Sound s v := by
  induction h with
  | argument hv => exact ha _ hv
  | bound hv => exact hg.frames hv
  | field hv => exact hg.fields hv
  | object _ _ ih => exact ih
  | classDef _ ih => exact ih
  | _ => trivial

theorem After.onlyGlobals {A : Nat → String → Prop} (hg : Good s) {m : Machine}
    (h : s.machine.OnlyGlobals m) : After A s { s with machine := m } := by
  have hu : Unlogged s { s with machine := m } :=
    { log := rfl, env := h.env, distances := h.distances, nextNode := h.nextNode
      size := Nat.le_of_eq h.size.symm
      binds := fun {i name} hb => by
        by_cases hi : i = Machine.globalFrame
        · subst hi
          exact h.kept name hb
        · rwa [State.Binds, h.locals i name hi] }
  refine ⟨hu.later, hu.good hg (fun {i name v} hr => ?_) (fun hr => ?_), h.env,
    fun {i name} _ hb => ?_⟩
  · by_cases hi : i = Machine.globalFrame
    · subst hi
      have hv : Sound s v := .of_offers hg (List.forall_mem_nil _) (h.offered name v hr)
      exact hv.later hu.later
    · exact (hg.frames (by rwa [h.locals i name hi] at hr)).later hu.later
  · exact (hg.fields (by rwa [Machine.fields, h.objects] at hr)).later hu.later
  · by_cases hi : i = Machine.globalFrame
    · exact .inr (.inl hi)
    · exact .inl (by rwa [State.Binds, h.locals i name hi] at hb)

theorem sound_of_callNative {host : Host} (hh : host.Honest) (hg : Good s) {paren : Token}
    {f : Native} {args : List Value} (ha : ∀ v ∈ args, Sound s v) {v : Value} {m : Machine}
    (h : Eval.callNative host paren f args s.machine = .ok v m) : Sound s v := by
  unfold Eval.callNative at h
  split at h
  · cases h
    trivial
  · split at h
    · cases h
    case h_2 g hslot =>
      split at h
      case h_1 w hw =>
        cases h
        exact .of_offers hg ha (hh.functions g (List.mem_of_getElem? hslot) _ _ _ hw)
      case h_2 => cases h

/-! ### Environments and frames -/

def State.inEnv (s : State) (env : Env) : State :=
  { s with machine := { s.machine with env := env } }

theorem Later.inEnv (s : State) (env : Env) : Later s (s.inEnv env) :=
  ⟨List.suffix_refl _, Nat.le_refl _, id, Nat.le_refl _, fun _ => rfl⟩

theorem Good.inEnv (hg : Good s) (env : Env) : Good (s.inEnv env) where
  frames hr := (hg.frames hr).later (.inEnv s env)
  fields hr := (hg.fields hr).later (.inEnv s env)
  size := hg.size
  fresh := hg.fresh
  programs hp := (hg.programs hp).later (.inEnv s env)
  apart := hg.apart
  entered := hg.entered
  once := hg.once
  referred := hg.referred
  began := hg.began

theorem After.inEnv {A : Nat → String → Prop} {s' : State} {env : Env}
    (h : After A (s.inEnv env) s') : After A s (s'.inEnv s.machine.env) where
  later := ((Later.inEnv s env).trans h.later).trans (.inEnv _ _)
  good := h.good.inEnv _
  env := rfl
  adds hi hb := h.adds hi hb

namespace Yields

variable {α : Type} {A : Nat → String → Prop} {Q R : α → State → Prop}

/-- What comes after a first step. -/
theorem after {s' : State} {r : EStateM.Result Stop State α} (h : After A s s')
    (hr : Yields A s' Q r) : Yields A s Q r := by
  cases r with
  | ok a s'' => exact ⟨h.trans hr.1, hr.2⟩
  | error e s'' => exact h.trans hr

theorem inEnv {env : Env} {act : Traced α} (h : Yields A (s.inEnv env) Q (act (s.inEnv env)))
    (hQ : ∀ a s', Q a s' → R a (s'.inEnv s.machine.env)) : Yields A s R (Trace.inEnv env act s) := by
  unfold Trace.inEnv
  have hs : ({ s with machine := { s.machine with env := env } } : State) = s.inEnv env := rfl
  rw [hs]
  cases hact : act (s.inEnv env) with
  | ok a s' =>
    rw [hact] at h
    exact ⟨h.1.inEnv, hQ a s' h.2⟩
  | error e s' =>
    rw [hact] at h
    exact After.inEnv h

/-- Names that are added to a new frame are added to no frame that was there. -/
theorem enter (hg : Good s) (site : Site) (outer : Env) {frame : Frame}
    (hf : ∀ {name v}, frame.get? name = some v → Sound s v) {r : EStateM.Result Stop State α}
    (h : Yields (fun i _ => i = s.machine.frames.size) (s.enter site outer frame) Q r) :
    Yields A s Q r := by
  have he : After nothing s (s.enter site outer frame) := .enter hg hf
  have hs : ∀ {s'}, After (fun i _ => i = s.machine.frames.size) (s.enter site outer frame) s' →
      After A s s' := by
    intro s' h
    refine ⟨he.later.trans h.later, h.good, h.env.trans he.env, fun {i name} hi hb => ?_⟩
    rcases h.adds (Nat.lt_of_lt_of_le hi he.later.size) hb with hb | h0 | hsize
    · exact (he.adds hi hb).imp_right fun h => h.imp_right False.elim
    · exact .inr (.inl h0)
    · exact absurd hsize (Nat.ne_of_lt hi)
  cases r with
  | ok a s' => exact ⟨hs h.1, h.2⟩
  | error e s' => exact hs h

theorem flushing {act : Traced α} (h : Yields A s Q (act s))
    (hQ : ∀ a s' s'', Later s' s'' → Q a s' → R a s'') : Yields A s R (Trace.flushing act s) := by
  unfold Trace.flushing
  cases hact : act s with
  | ok a s' =>
    rw [hact] at h
    refine .after h.1 (.bind (Q := fun _ s'' => Later s' s'') ?_ fun _ s'' ha hl => ?_)
    · exact Quiet.flush.yields h.1.good fun _ _ _ ha _ => ha.later
    · exact .pure ha.good (hQ a s' s'' hl h.2)
  | error e s' =>
    rw [hact] at h
    cases e with
    | exhausted => exact h
    | failed e =>
      refine .after h (.bind (Q := fun _ _ => True) ?_ fun _ s'' ha _ => ?_)
      · exact Quiet.flush.yields h.good fun _ _ _ _ _ => trivial
      · exact .throw ha.good

end Yields

/-! ### Methods and scripts -/

theorem Yields.attach {A : Nat → String → Prop} (hg : Good s) {receiver : Value} {f : Closure}
    (hr : Sound s receiver) (hf : SoundMethod s f) :
    Yields A s (fun g s' => SoundFunction s' g ∧ g.decl = f.decl) (Trace.attach receiver f s) := by
  have ha : After A s (s.enter (.receiver f.decl) f.env [("this", receiver)]) := by
    refine .enter hg fun {name v} hv => ?_
    rw [Table.eq_of_get?_singleton hv]
    exact hr
  obtain ⟨hw, ctx, sites, a, o, os, hos, ho, hm, hs, hv⟩ := hf
  refine ⟨ha, ⟨hw, ctx, .receiver f.decl :: sites, a, ?_, ?_, fun v h => ?_⟩, rfl⟩
  · rw [hos]
    refine hm.enter fun name hn => ?_
    obtain ⟨rfl, -⟩ := ho name true hn
    rfl
  · rw [hos]
    intro p hp name hn
    rcases List.mem_cons.1 hp with rfl | hp
    · exact Bool.noConfusion (ho name false hn).2
    · exact hs p hp name hn
  · exact (hv v h).mono ha.later.log

theorem Yields.newFunction {A : Nat → String → Prop} (hg : Good s) {f : Closure}
    (hf : SoundFunction s f) :
    Yields A s (fun v s' => Sound s' v) (lift (Eval.newFunction f) s) := by
  refine (Quiet.newFunction f).yields hg fun v s' m ha hv => ?_
  cases hv
  exact SoundFunction.later ha.later hf

/-- A method becomes a function of its own once it has an object. -/
theorem Yields.method {A : Nat → String → Prop} (hg : Good s) {id : Nat} {c : Class} {f : Closure}
    (hc : SoundClass s c) (hf : SoundMethod s f) :
    Yields A s (fun v s' => Sound s' v)
      ((do let g ← Trace.attach (.object id c) f
           lift (Eval.newFunction g) : Traced Value) s) :=
  .bind (.attach hg hc hf) fun _ _ ha hg' => .newFunction ha.good hg'.1

theorem lift_get_apply : lift get s = .ok s.machine s := rfl

theorem lift_ok {α : Type} {act : Eval α} {a : α} {m : Machine} (h : act s.machine = .ok a m) :
    lift act s = .ok a { s with machine := m } := by
  rw [lift, h]

theorem lift_error {α : Type} {act : Eval α} {e : Stop} {m : Machine}
    (h : act s.machine = .error e m) : lift act s = .error e { s with machine := m } := by
  rw [lift, h]

theorem Yields.fail {α : Type} {A : Nat → String → Prop} {Q : α → State → Prop} (hg : Good s)
    (t : Token) (fault : RuntimeFault) : Yields A s Q (lift (Eval.fail t fault) s) :=
  (Quiet.fail t fault).yields hg nofun

theorem Yields.getProperty {A : Nat → String → Prop} (hg : Good s) (id : Nat) {c : Class}
    (hc : SoundClass s c) (name : Token) :
    Yields A s (fun v s' => Sound s' v) (Trace.getProperty id c name s) := by
  unfold Trace.getProperty
  rw [Ending.bind_ok lift_get_apply]
  cases hv : (s.machine.fields id).get? name.lexeme with
  | some v => exact .pure hg (hg.fields hv)
  | none =>
    cases hf : c.findMethod name.lexeme with
    | some f => exact .method hg hc (hc _ f hf)
    | none => exact .fail hg _ _

theorem Yields.setField {A : Nat → String → Prop} (hg : Good s) (id : Nat) (name : Token)
    {v : Value} (hv : Sound s v) :
    Yields A s (fun _ _ => True) (lift (Eval.setField id name v) s) :=
  ⟨.setField hg id name.lexeme hv, trivial⟩

theorem Yields.newObject {A : Nat → String → Prop} (hg : Good s) {c : Class} (hc : SoundClass s c) :
    Yields A s (fun v s' => Sound s' v) (lift (Eval.newObject c) s) := by
  have ha : After A s (s.withObjects (s.machine.objects.push [])) := .newObject hg
  exact ⟨ha, SoundClass.later ha.later hc⟩

/-- Assigning makes no new name. -/
theorem Yields.store {A : Nat → String → Prop} (hg : Good s) {holder : Machine → Option Nat}
    {name : Token} (hh : ∀ i, holder s.machine = some i → s.Binds i name.lexeme) {v : Value}
    (hv : Sound s v) : Yields A s (fun _ _ => True) (lift (Eval.store holder name v) s) := by
  unfold lift Eval.store
  cases hi : holder s.machine with
  | none => exact .refl hg
  | some i =>
    have hb := hh i hi
    obtain ⟨w, hw⟩ := Option.isSome_iff_exists.1 hb
    have hlt := Frames.lt_size_of_read hw
    exact ⟨.define hg hlt (hv.later (Unlogged.define hlt _ _).later) (.inl hb), trivial⟩

/-- An accepted script is in the log. -/
theorem Yields.readScript {A : Nat → String → Prop} (hg : Good s) (host : Host) (path : String) :
    Yields A s (fun program s' => ∃ d, .accepted program d ∈ s'.log)
      (Trace.readScript host path s) := by
  unfold Trace.readScript
  rw [Ending.bind_ok lift_get_apply]
  cases hr : host.read path with
  | error fault =>
    have hl : Eval.readScript host path s.machine = .error (.failed (.script path [.io fault])) s.machine := by
      rw [Eval.readScript, hr]
    rw [Ending.bind_error (lift_error hl)]
    exact .refl hg
  | ok source =>
    have hc := compiled s.machine source
    cases hm : s.machine.compile source with
    | mk result m =>
      rw [hm] at hc
      cases result with
      | error es =>
        have hl : Eval.readScript host path s.machine = .error (.failed (.script path es)) m := by
          simp only [Eval.readScript, hr, hm]
        rw [Ending.bind_error (lift_error hl)]
        exact hc.after hg
      | ok accepted =>
        obtain ⟨program, warnings⟩ := accepted
        have hl : Eval.readScript host path s.machine = .ok program (m.queueWarnings warnings) := by
          simp only [Eval.readScript, hr, hm]
        rw [Ending.bind_ok (lift_ok hl)]
        exact ⟨.accept hg hm ⟨rfl, rfl, rfl, rfl, rfl⟩, _, List.mem_cons_self⟩

end Trace
end Lox
