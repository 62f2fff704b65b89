import Lox.Proofs.Scope.Faults
import Lox.Proofs.Scope.Trace

/-!
# What a log and its machine have in common

A chain of frames `Matches` the scopes that the analysis had open at some place if each frame was made
for the piece of the program that opened the scope, and binds every name that the scope has defined. A function
is sound if the environment it was made in matches the scopes around its declaration. A state
is good if all its values are sound and every reference in its log agrees with a visit of the analysis.

What is sound stays so: logs grow, frames only gain names, and distances on record do not change.
-/

namespace Lox
open Scoping
namespace Trace

def State.Binds (s : State) (i : Nat) (name : String) : Prop :=
  (s.machine.frames.read i name).isSome = true

/-- The visits of the programs that were accepted. -/
def Known (log : Log) (v : Visit) : Prop :=
  ∃ program distances, .accepted program distances ∈ log ∧
    v ∈ Stmt.visitsProgram program distances

/-! ## Growth -/

structure Later (s s' : State) : Prop where
  log : s.log <:+ s'.log
  size : s.machine.frames.size ≤ s'.machine.frames.size
  binds : ∀ {i name}, s.Binds i name → s'.Binds i name
  nextNode : s.machine.nextNode ≤ s'.machine.nextNode
  distances : ∀ {id}, id < s.machine.nextNode →
    s'.machine.distances[id]? = s.machine.distances[id]?

theorem Later.refl (s : State) : Later s s :=
  ⟨List.suffix_refl _, Nat.le_refl _, id, Nat.le_refl _, fun _ => rfl⟩

theorem Later.trans {s₁ s₂ s₃ : State} (h : Later s₁ s₂) (h' : Later s₂ s₃) : Later s₁ s₃ where
  log := h.log.trans h'.log
  size := Nat.le_trans h.size h'.size
  binds hb := h'.binds (h.binds hb)
  nextNode := Nat.le_trans h.nextNode h'.nextNode
  distances hid := (h'.distances (Nat.lt_of_lt_of_le hid h.nextNode)).trans (h.distances hid)

theorem Known.mono {log log' : Log} {v : Visit} (h : Known log v) (hl : log <:+ log') :
    Known log' v := by
  obtain ⟨program, distances, hp, hv⟩ := h
  exact ⟨program, distances, hl.subset hp, hv⟩

/-! ## Sound values -/

inductive Matches (s : State) : Env → List Site → List Outline → Prop
  | globals : Matches s Machine.globals [] []
  | scope {i : Nat} {env : Env} {site : Site} {sites : List Site} {o : Outline} {os : List Outline} :
      .entered site env i ∈ s.log → (∀ name, o name = some true → s.Binds i name) →
      Matches s env sites os → Matches s (i :: env) (site :: sites) (o :: os)

theorem Matches.later {s s' : State} {env : Env} {sites : List Site} {os : List Outline}
    (h : Matches s env sites os) (hl : Later s s') : Matches s' env sites os := by
  induction h with
  | globals => exact .globals
  | scope he hb _ ih => exact .scope (hl.log.subset he) (fun name hn => hl.binds (hb name hn)) ih

/-- No scope has a name that is declared and has no value yet. -/
def Settled (os : List Outline) : Prop := ∀ o ∈ os, ∀ name, o name ≠ some false

structure SoundFunction (s : State) (f : Closure) : Prop where
  wellFormed : f.decl.WellFormed
  place : ∃ ctx sites a, Matches s f.env sites (outlines a.scopes) ∧ Settled (outlines a.scopes) ∧
    ∀ v ∈ f.decl.visits ctx sites a, Known s.log v

/-- A method that is not yet bound to an object. -/
structure SoundMethod (s : State) (f : Closure) : Prop where
  wellFormed : f.decl.WellFormed
  place : ∃ ctx sites a o os, outlines a.scopes = o :: os ∧
    (∀ name b, o name = some b → name = "this" ∧ b = true) ∧
    Matches s f.env sites os ∧ Settled os ∧
    ∀ v ∈ f.decl.visits ctx (.receiver f.decl :: sites) a, Known s.log v

def SoundClass (s : State) (c : Class) : Prop := ∀ name f, c.findMethod name = some f → SoundMethod s f

def Sound (s : State) : Value → Prop
  | .function _ f => SoundFunction s f
  | .classDef c => SoundClass s c
  | .object _ c => SoundClass s c
  | _ => True

section later

variable {s s' : State} (hl : Later s s')
include hl

theorem SoundFunction.later {f : Closure} (h : SoundFunction s f) : SoundFunction s' f := by
  obtain ⟨hw, ctx, sites, a, hm, hs, hv⟩ := h
  exact ⟨hw, ctx, sites, a, hm.later hl, hs, fun v h => (hv v h).mono hl.log⟩

theorem SoundMethod.later {f : Closure} (h : SoundMethod s f) : SoundMethod s' f := by
  obtain ⟨hw, ctx, sites, a, o, os, ho, hthis, hm, hs, hv⟩ := h
  exact ⟨hw, ctx, sites, a, o, os, ho, hthis, hm.later hl, hs, fun v h => (hv v h).mono hl.log⟩

theorem SoundClass.later {c : Class} (h : SoundClass s c) : SoundClass s' c :=
  fun name f hf => (h name f hf).later hl

theorem Sound.later {v : Value} (h : Sound s v) : Sound s' v := by
  cases v with
  | function id f => exact SoundFunction.later hl h
  | classDef c => exact SoundClass.later hl h
  | object id c => exact SoundClass.later hl h
  | _ => trivial

end later

end Trace

/-! ## Machines without loose ends -/

/-- The frames that the value refers to are among the first `size`. -/
def Value.Framed (size : Nat) : Value → Prop
  | .function _ f => ∀ i ∈ f.env, i < size
  | .classDef c => ∀ name f, c.findMethod name = some f → ∀ i ∈ f.env, i < size
  | .object _ c => ∀ name f, c.findMethod name = some f → ∀ i ∈ f.env, i < size
  | _ => True

/-- All frames that the machine refers to are there. -/
structure Machine.Framed (m : Machine) : Prop where
  globals : Machine.globalFrame < m.frames.size
  env : ∀ i ∈ m.env, i < m.frames.size
  frames : ∀ {i name v}, m.frames.read i name = some v → v.Framed m.frames.size
  fields : ∀ {id name v}, (m.fields id).get? name = some v → v.Framed m.frames.size

/-- The routine is well formed, and its identities are below `next`. -/
def Routine.Numbered (next : Nat) (r : Routine) : Prop := r.WellFormed ∧ ∀ i ∈ r.nodes, i < next

def Value.Numbered (next : Nat) : Value → Prop
  | .function _ f => f.decl.Numbered next
  | .classDef c => ∀ name f, c.findMethod name = some f → f.decl.Numbered next
  | .object _ c => ∀ name f, c.findMethod name = some f → f.decl.Numbered next
  | _ => True

/-- The machine holds no routine with an identity to come, and has nothing on record for one. -/
structure Machine.Numbered (m : Machine) : Prop where
  frames : ∀ {i name v}, m.frames.read i name = some v → v.Numbered m.nextNode
  fields : ∀ {id name v}, (m.fields id).get? name = some v → v.Numbered m.nextNode
  fresh : ∀ {id}, m.nextNode ≤ id → m.distances[id]? = none

namespace Trace

/-! ## Good states -/

/-- The distances of an accepted program are on record. -/
structure Loaded (m : Machine) (program : List Stmt) (distances : Distances) : Prop where
  wellFormed : Stmt.AllWellFormed program
  regular : Stmt.AllRegular program
  faultless : (Stmt.analyse program distances).errors = []
  nodup : (Stmt.nodesAll program).Nodup
  lt_nextNode : ∀ id ∈ Stmt.nodesAll program, id < m.nextNode
  recorded : ∀ v ∈ Stmt.visitsProgram program distances, m.distances[v.ref.id]? = v.distance

/-- The frames of an environment were made for these pieces of a program, and the last is that of
the globals. -/
inductive Chain (log : Log) : Env → List Site → Prop
  | globals : Chain log Machine.globals []
  | scope {i : Nat} {env : Env} {site : Site} {sites : List Site} :
      .entered site env i ∈ log → Chain log env sites → Chain log (i :: env) (site :: sites)

/-- A reference agrees with the visit of the analysis at its place. -/
structure Agrees (log : Log) (ref : Reference) (m : Machine) (v : Visit) : Prop where
  known : Known log v
  about : v.ref = ref
  depth : v.sites.length = v.scopes.length
  chain : Chain log m.env v.sites
  distance : m.distances[ref.id]? = v.distance
  bound : ∀ d, v.distance = some d →
    ((m.frames.getAt? m.env d ref.name.lexeme).isSome = true ↔ v.initializing = false)
  /-- A name that a scope has given a value is bound in the frame of the scope. -/
  held : ∀ k o name, (outlines v.scopes)[k]? = some o → o name = some true →
    (m.frames.getAt? m.env k name).isSome = true

/-- A statement stands where the analysis was there, and what was found of its names is on record. -/
structure Stands (log : Log) (st : Stmt) (m : Machine) (ctx : Context) (sites : List Site) (a : Analysis) : Prop where
  wellFormed : st.WellFormed
  framed : m.Framed
  numbered : m.Numbered
  known : ∀ v ∈ st.visits ctx sites a, Known log v
  recorded : ∀ v ∈ st.visits ctx sites a, v.ref.id < m.nextNode ∧ m.distances[v.ref.id]? = v.distance
  depth : sites.length = a.scopes.length
  chain : Chain log m.env sites
  settled : Settled (outlines a.scopes)
  held : ∀ k o name, (outlines a.scopes)[k]? = some o → o name = some true →
    (m.frames.getAt? m.env k name).isSome = true

structure Good (s : State) : Prop where
  frames : ∀ {i name v}, s.machine.frames.read i name = some v → Sound s v
  fields : ∀ {id name v}, (s.machine.fields id).get? name = some v → Sound s v
  size : 0 < s.machine.frames.size
  fresh : ∀ {id}, s.machine.nextNode ≤ id → s.machine.distances[id]? = none
  programs : ∀ {p d}, .accepted p d ∈ s.log → Loaded s.machine p d
  apart : ∀ {p d p' d' id}, .accepted p d ∈ s.log → .accepted p' d' ∈ s.log →
    id ∈ Stmt.nodesAll p → id ∈ Stmt.nodesAll p' → p = p' ∧ d = d'
  entered : ∀ {site env i}, .entered site env i ∈ s.log → 0 < i ∧ i < s.machine.frames.size
  once : ∀ {site site' env env' i}, .entered site env i ∈ s.log → .entered site' env' i ∈ s.log →
    site = site' ∧ env = env'
  referred : ∀ {ref m}, .referred ref m ∈ s.log → ∃ v, Agrees s.log ref m v
  began : ∀ {st m}, .began st m ∈ s.log → ∃ ctx sites a, Stands s.log st m ctx sites a

theorem Loaded.later {s s' : State} {p : List Stmt} {d : Distances} (h : Loaded s.machine p d)
    (hl : Later s s') : Loaded s'.machine p d where
  wellFormed := h.wellFormed
  regular := h.regular
  faultless := h.faultless
  nodup := h.nodup
  lt_nextNode id hid := Nat.lt_of_lt_of_le (h.lt_nextNode id hid) hl.nextNode
  recorded v hv := by
    have hid : v.ref.id ∈ Stmt.nodesAll p :=
      (Stmt.ids_visitsAll {} [] p _).mem_iff.1 (List.mem_map_of_mem hv)
    rw [hl.distances (h.lt_nextNode _ hid)]
    exact h.recorded v hv

theorem Known.lt_nextNode {s : State} (hg : Good s) {v : Visit} (h : Known s.log v) :
    v.ref.id < s.machine.nextNode := by
  obtain ⟨p, d, hp, hv⟩ := h
  have hid : v.ref.id ∈ Stmt.nodesAll p :=
    (Stmt.ids_visitsAll {} [] p _).mem_iff.1 (List.mem_map_of_mem hv)
  exact (hg.programs hp).lt_nextNode _ hid

theorem Known.recorded {s : State} (hg : Good s) {v : Visit} (h : Known s.log v) :
    s.machine.distances[v.ref.id]? = v.distance := by
  obtain ⟨p, d, hp, hv⟩ := h
  exact (hg.programs hp).recorded v hv

theorem Chain.mono {log log' : Log} {env : Env} {sites : List Site} (h : Chain log env sites)
    (hl : log <:+ log') : Chain log' env sites := by
  induction h with
  | globals => exact .globals
  | scope he _ ih => exact .scope (hl.subset he) ih

theorem Agrees.mono {log log' : Log} {ref : Reference} {m : Machine} {v : Visit}
    (h : Agrees log ref m v) (hl : log <:+ log') : Agrees log' ref m v :=
  ⟨h.known.mono hl, h.about, h.depth, h.chain.mono hl, h.distance, h.bound, h.held⟩

theorem Stands.mono {log log' : Log} {st : Stmt} {m : Machine} {ctx : Context} {sites : List Site} {a : Analysis}
    (h : Stands log st m ctx sites a) (hl : log <:+ log') : Stands log' st m ctx sites a :=
  { h with known := fun v hv => (h.known v hv).mono hl, chain := h.chain.mono hl }

theorem Matches.chain {s : State} {env : Env} {sites : List Site} {os : List Outline}
    (h : Matches s env sites os) : Chain s.log env sites := by
  induction h with
  | globals => exact .globals
  | scope he _ _ ih => exact .scope he ih

theorem Matches.length {s : State} {env : Env} {sites : List Site} {os : List Outline}
    (h : Matches s env sites os) : sites.length = os.length := by
  induction h with
  | globals => rfl
  | scope _ _ _ ih => simp [ih]

/-! ## Runs -/

/-- From `s` to `s'` only names that `A` allows were added to frames that were there, apart from
globals. -/
structure After (A : Nat → String → Prop) (s s' : State) : Prop where
  later : Later s s'
  good : Good s'
  env : s'.machine.env = s.machine.env
  adds : ∀ {i name}, i < s.machine.frames.size → s'.Binds i name → s.Binds i name ∨ i = 0 ∨ A i name

/-- Expressions add no names. -/
def nothing : Nat → String → Prop := fun _ _ => False

theorem After.refl {A : Nat → String → Prop} {s : State} (h : Good s) : After A s s :=
  ⟨.refl s, h, rfl, fun _ hb => .inl hb⟩

theorem After.trans {A : Nat → String → Prop} {s₁ s₂ s₃ : State} (h : After A s₁ s₂)
    (h' : After A s₂ s₃) : After A s₁ s₃ where
  later := h.later.trans h'.later
  good := h'.good
  env := h'.env.trans h.env
  adds hi hb := by
    rcases h'.adds (Nat.lt_of_lt_of_le hi h.later.size) hb with hb | hb
    · exact h.adds hi hb
    · exact .inr hb

theorem After.mono {A B : Nat → String → Prop} {s s' : State} (h : After A s s')
    (hAB : ∀ i name, A i name → i = 0 ∨ B i name) : After B s s' where
  later := h.later
  good := h.good
  env := h.env
  adds hi hb := (h.adds hi hb).imp_right fun hb => hb.elim .inl (hAB _ _)

/-- However a computation ends it got `After`, and `Q` holds if it gave a value. -/
def Yields {α : Type} (A : Nat → String → Prop) (s : State) (Q : α → State → Prop) :
    EStateM.Result Stop State α → Prop
  | .ok a s' => After A s s' ∧ Q a s'
  | .error _ s' => After A s s'

namespace Yields

variable {α β : Type} {A : Nat → String → Prop} {s : State} {Q : α → State → Prop}

theorem bind {R : β → State → Prop} {p : Traced α} {f : α → Traced β} (hp : Yields A s Q (p s))
    (hf : ∀ a s', After A s s' → Q a s' → Yields A s' R (f a s')) :
    Yields A s R ((p >>= f) s) := by
  cases hps : p s with
  | ok a s' =>
    rw [hps] at hp
    rw [Ending.bind_ok hps]
    have h := hf a s' hp.1 hp.2
    cases hfs : f a s' with
    | ok b s'' =>
      rw [hfs] at h
      exact ⟨hp.1.trans h.1, h.2⟩
    | error e s'' =>
      rw [hfs] at h
      exact hp.1.trans h
  | error e s' =>
    rw [hps] at hp
    rw [Ending.bind_error hps]
    exact hp

theorem imp {B : Nat → String → Prop} {R : α → State → Prop} {r : EStateM.Result Stop State α}
    (h : Yields A s Q r) (hAB : ∀ i name, A i name → i = 0 ∨ B i name)
    (hQR : ∀ a s', After A s s' → Q a s' → R a s') : Yields B s R r := by
  cases r with
  | ok a s' => exact ⟨h.1.mono hAB, hQR a s' h.1 h.2⟩
  | error e s' => exact h.mono hAB

theorem pure {a : α} (hg : Good s) (hq : Q a s) : Yields A s Q ((Pure.pure a : Traced α) s) :=
  ⟨.refl hg, hq⟩

theorem throw {e : Stop} (hg : Good s) : Yields A s Q ((MonadExcept.throw e : Traced α) s) :=
  .refl hg

end Yields

end Trace
end Lox
