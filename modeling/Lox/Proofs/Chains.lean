import Lox.Proofs.Construct.Instances
import Lox.Proofs.Inherit.Super

/-!
# Chains of frames and of classes lead back in time

The log of a session says in which older frame each frame lies. As a record of links it is the same for all machines of
the session. Whoever follows a link comes to a lower number, so every walk ends, with the globals, and walks by number
find what the machine finds along its environments. Along superclasses, identities fall likewise.
-/

namespace Lox
open Trace

theorem Frames.get?_eq_findSome? (fs : Frames) (env : Env) (name : String) :
    fs.get? env name = env.findSome? (fs.read · name) := by
  induction env with
  | nil => rfl
  | cons i rest ih => cases h : fs.read i name <;> simp [Frames.get?, h, ih]

theorem Frames.assign?_eq_findSome? (fs : Frames) (env : Env) (name : String) (v : Value) :
    fs.assign? env name v = env.findSome? fun j => (fs.read j name).map fun _ => fs.define j name v := by
  unfold Frames.assign?
  induction env with
  | nil => rfl
  | cons i rest ih => cases h : fs.read i name <;> simp [Frames.holder?, h, ih]

/-- The frame that each frame lies in, an older one. -/
structure Links where
  outer : Nat → Option Nat
  outer_lt : ∀ {i j : Nat}, outer i = some j → j < i

namespace Links

/-! ## Walks by number -/

/-- What is found first from a frame outwards. -/
def seek {α : Type} (o : Links) (f : Nat → Option α) (i : Nat) : Option α :=
  (f i).or (match _ : o.outer i with
    | some j => o.seek f j
    | none => none)
termination_by i
decreasing_by exact o.outer_lt ‹_›

/-- The frame so many links out. -/
def hop (o : Links) (i : Nat) : Nat → Option Nat
  | 0 => some i
  | d + 1 => (o.outer i).bind fun j => o.hop j d

/-- From the frame, links lead through the others to the globals. -/
inductive Leads (o : Links) : Nat → Env → Prop
  | globals : Leads o Machine.globalFrame []
  | frame {i j : Nat} {rest : Env} : o.outer i = some j → Leads o j rest → Leads o i (j :: rest)

/-- What the links from a frame say about the environment that begins with it. -/
structure Walks (o : Links) (i : Nat) (rest : Env) : Prop where
  only : ∀ other, o.Leads i other → other = rest
  older : ∀ j ∈ rest, j < i
  reaches : o.hop i rest.length = some Machine.globalFrame
  get : ∀ (fs : Frames) name, fs.get? (i :: rest) name = o.seek (fs.read · name) i
  assign : ∀ (fs : Frames) name v, fs.assign? (i :: rest) name v =
    o.seek (fun j => (fs.read j name).map fun _ => fs.define j name v) i
  getAt : ∀ (fs : Frames) d name, fs.getAt? (i :: rest) d name = (o.hop i d).bind (fs.read · name)
  assignAt : ∀ (fs : Frames) d name v, fs.assignAt? (i :: rest) d name v =
    (o.hop i d).bind fun j => (fs.read j name).map fun _ => fs.define j name v
  ancestor : ∀ d env, Env.ancestor? (i :: rest) d = some env ↔
    ∃ j outer, env = j :: outer ∧ o.hop i d = some j ∧ o.Leads j outer

namespace Leads

variable {o : Links} {i : Nat} {rest : Env} (h : o.Leads i rest)

theorem outer_global (o : Links) : o.outer Machine.globalFrame = none := by
  cases h : o.outer Machine.globalFrame with
  | none => rfl
  | some j => exact absurd (o.outer_lt h) (Nat.not_lt_zero j)

include h

theorem unique {other : Env} (h' : o.Leads i other) : other = rest := by
  induction h generalizing other with
  | globals =>
    cases h' with
    | globals => rfl
    | frame hj _ => cases (outer_global o).symm.trans hj
  | frame hj _ ih =>
    cases h' with
    | globals => cases (outer_global o).symm.trans hj
    | frame hj' h' =>
      cases hj.symm.trans hj'
      rw [ih h']

theorem older : ∀ j ∈ rest, j < i := by
  induction h with
  | globals => exact List.forall_mem_nil _
  | frame hj _ ih =>
    have hlt := o.outer_lt hj
    exact List.forall_mem_cons.2 ⟨hlt, fun k hk => Nat.lt_trans (ih k hk) hlt⟩

theorem reaches : o.hop i rest.length = some Machine.globalFrame := by
  induction h with
  | globals => rfl
  | frame hj _ ih => rw [List.length_cons, hop, hj, Option.bind_some, ih]

theorem findSome?_eq_seek {α : Type} (f : Nat → Option α) : (i :: rest).findSome? f = o.seek f i := by
  induction h with
  | globals =>
    rw [seek]
    split
    · next hj => cases (outer_global o).symm.trans hj
    · cases hf : f Machine.globalFrame <;> simp [hf]
  | @frame i j rest hj _ ih =>
    rw [seek]
    split
    · next hj' =>
      cases hj.symm.trans hj'
      rw [← ih]
      cases hf : f i <;> simp [hf]
    · next hnone => cases hj.symm.trans hnone

theorem getElem?_eq_hop (d : Nat) : (i :: rest)[d]? = o.hop i d := by
  induction h generalizing d with
  | globals =>
    cases d with
    | zero => rfl
    | succ d => rw [hop, outer_global]; rfl
  | frame hj _ ih =>
    cases d with
    | zero => rfl
    | succ d => rw [hop, hj, List.getElem?_cons_succ, ih, Option.bind_some]

theorem ancestor_iff {d : Nat} {env : Env} : Env.ancestor? (i :: rest) d = some env ↔
    ∃ j outer, env = j :: outer ∧ o.hop i d = some j ∧ o.Leads j outer := by
  induction d generalizing i rest with
  | zero =>
    refine ⟨fun he => ?_, fun ⟨j, outer, henv, hj, hl⟩ => ?_⟩
    · cases he
      exact ⟨i, rest, rfl, rfl, h⟩
    · cases hj
      rw [henv, hl.unique h]
      rfl
  | succ d ih =>
    cases h with
    | globals => simp [Env.ancestor?, hop, outer_global]
    | frame hj h =>
      rw [hop, hj]
      exact ih h

theorem walks : o.Walks i rest where
  only _ h' := h.unique h'
  older := h.older
  reaches := h.reaches
  get fs name := by rw [← h.findSome?_eq_seek, Frames.get?_eq_findSome?]
  assign fs name v := by rw [← h.findSome?_eq_seek, Frames.assign?_eq_findSome?]
  getAt fs d name := by
    rw [Frames.getAt?, h.getElem?_eq_hop]
    cases o.hop i d <;> rfl
  assignAt fs d name v := by
    rw [Frames.assignAt?, Frames.holderAt?, h.getElem?_eq_hop]
    cases o.hop i d with
    | none => rfl
    | some j => cases hr : fs.read j name <;> simp [hr]
  ancestor _ _ := h.ancestor_iff

end Leads

/-! ## What machines hold -/

/-- The environment begins with a frame from which links lead along it. -/
def Grounds (o : Links) (env : Env) : Prop := ∃ i rest, env = i :: rest ∧ o.Leads i rest

/-- Links lead from every function behind the value to the globals. -/
def Covers (o : Links) : Value → Prop
  | .function _ f => o.Grounds f.env
  | .classDef c | .object _ c => ∀ d name f, c.Descends d → d.methods.get? name = some f → o.Grounds f.env
  | _ => True

structure Explains (o : Links) (m : Machine) : Prop where
  env : o.Grounds m.env
  frames : ∀ {i name v}, m.frames.read i name = some v → o.Covers v
  fields : ∀ {id name v}, (m.fields id).get? name = some v → o.Covers v

end Links

theorem Trace.Declared.of_descends {s : State} {c d : Class} (h : Declared s c) (hd : c.Descends d) : Declared s d := by
  induction hd with
  | refl => exact h
  | up hp _ ih =>
    cases h with
    | base => cases hp
    | derived _ _ _ _ _ hparent =>
      cases hp
      exact ih hparent

theorem Trace.Knows.explains {s : State} {m : Machine} (h : Knows s m) {o : Links}
    (ho : ∀ env, Linked s.log env → o.Grounds env) : o.Explains m := by
  have hvalue : ∀ v, Rooted s v → o.Covers v := by
    intro v hv
    have hclass : ∀ {c}, Declared s c → ∀ d name f, c.Descends d → d.methods.get? name = some f → o.Grounds f.env :=
      fun hc d name f hd hf => ho _ ((hc.of_descends hd).own hf).1.linked
    cases v with
    | function id f => exact ho _ hv.linked
    | classDef c => exact hclass hv
    | object id c => exact hclass hv
    | _ => trivial
  exact ⟨ho _ h.linked, fun hr => hvalue _ (h.frames hr), fun hr => hvalue _ (h.fields hr)⟩

/-! ## The record of a session -/

/-- The frame that another lies in by the log. -/
def Trace.outer? (log : Log) (i : Nat) : Option Nat :=
  log.findSome? fun
    | .entered _ (j :: _) k => if k = i then some j else none
    | _ => none

theorem Trace.entered_of_outer? {log : Log} {i j : Nat} (h : outer? log i = some j) :
    ∃ site rest, .entered site (j :: rest) i ∈ log := by
  obtain ⟨event, hmem, hevent⟩ := List.exists_of_findSome?_eq_some h
  split at hevent
  · split at hevent
    · next hk =>
      cases hevent
      exact ⟨_, _, hk ▸ hmem⟩
    · cases hevent
  · cases hevent

theorem Trace.outer?_of_entered {m : Machine} {log : Log} (hg : Good ⟨m, log⟩) {site : Scoping.Site} {rest : Env}
    {i j : Nat} (he : .entered site (j :: rest) i ∈ log) : outer? log i = some j := by
  cases h : outer? log i with
  | none =>
    have hnone := List.findSome?_eq_none_iff.1 h _ he
    simp at hnone
  | some j' =>
    obtain ⟨site', rest', he'⟩ := entered_of_outer? h
    rw [(List.cons.inj (hg.once he he').2).1]

/-- In a session, links lead from each frame of the log through those that it was made on. -/
theorem Trace.exists_links {m m' : Machine} {log : Log} (hg : Good ⟨m, log⟩) (hl : Lineal ⟨m', log⟩) :
    ∃ o : Links, ∀ env, Linked log env → o.Grounds env := by
  have hlt : ∀ {i j}, outer? log i = some j → j < i := by
    intro i j h
    obtain ⟨site, rest, he⟩ := entered_of_outer? h
    exact (hl.younger he).2 j List.mem_cons_self
  refine ⟨⟨outer? log, fun h => hlt h⟩, ?_⟩
  rintro env ⟨sites, hc⟩
  induction hc with
  | globals => exact ⟨_, _, rfl, .globals⟩
  | scope he _ ih =>
    obtain ⟨j, rest, rfl, h⟩ := ih
    exact ⟨_, _, rfl, .frame (outer?_of_entered hg he) h⟩

theorem Trace.session_append {done : List Session.Line} {s s' : Session} {log log' : Log}
    (h : session done s log = (some s', log')) (rest : List Session.Line) :
    session (done ++ rest) s log = session rest s' log' := by
  induction done generalizing s log with
  | nil =>
    cases h
    rfl
  | cons line done ih =>
    rw [session] at h
    rw [List.cons_append, session]
    cases hr : run line.host line.fuel line.source s log with
    | mk result log₁ =>
      rw [hr] at h
      cases result with
      | none => cases h
      | some last => exact ih h

/-- Texts that have been run have their part in the log. -/
theorem Trace.lineal_done {done rest : List Session.Line} (hh : ∀ line ∈ done ++ rest, line.host.Honest)
    {s s' : Session} (h : Lineal ⟨s.machine, []⟩) (hs : s.runAll done = some s') :
    ∃ log, Lineal ⟨s'.machine, log⟩ ∧ log <:+ (session (done ++ rest) s []).2 := by
  obtain ⟨hdone, hrest⟩ := List.forall_mem_append.1 hh
  rw [← session_fst done s []] at hs
  have hl := (Lasts.session (fun line hline => lineal_run (hdone line hline) []) ⟨h, List.suffix_refl _⟩).2 s' hs
  refine ⟨_, hl.1, ?_⟩
  rw [session_append (Prod.ext hs rfl) rest]
  obtain ⟨m, -, hlog⟩ :=
    (Lasts.session (fun line hline => lineal_run (hrest line hline) _) ⟨hl.1, List.suffix_refl _⟩).1
  exact hlog

/-! ## Classes -/

/-- The class and those above it, in this order. -/
def Class.line : Class → List Class
  | ⟨id, name, none, methods⟩ => [⟨id, name, none, methods⟩]
  | ⟨id, name, some parent, methods⟩ => ⟨id, name, some parent, methods⟩ :: parent.line

/-- To go up from the class is to meet ever older ones, and methods are looked up on the way. -/
structure Class.Walks (c : Class) : Prop where
  older : c.line.Pairwise fun d e => e.id < d.id
  le : ∀ d ∈ c.line, d.id ≤ c.id
  length : c.line.length ≤ c.id + 1
  findMethod : ∀ name, c.findMethod name = c.line.findSome? (·.methods.get? name)

theorem Class.Ordered.walks {k : Nat} : ∀ {c : Class}, c.Ordered k → c.Walks
  | ⟨id, name, none, methods⟩, _ =>
    { older := List.pairwise_singleton _ _
      le := List.forall_mem_singleton.2 (Nat.le_refl id)
      length := Nat.le_add_left 1 id
      findMethod := fun key => by
        rw [Class.findMethod_eq]
        cases h : methods.get? key <;> simp [line, h] }
  | ⟨id, name, some parent, methods⟩, h => by
    have hp : parent.Walks := Class.Ordered.walks fun d hd => h d (.up rfl hd)
    have hlt : parent.id < id := (h _ (.refl _)).2 parent rfl
    have hbelow : ∀ d ∈ parent.line, d.id < id := fun d hd => Nat.lt_of_le_of_lt (hp.le d hd) hlt
    refine ⟨List.pairwise_cons.2 ⟨hbelow, hp.older⟩, ?_, ?_, fun key => ?_⟩
    · exact List.forall_mem_cons.2 ⟨Nat.le_refl id, fun d hd => Nat.le_of_lt (hbelow d hd)⟩
    · exact Nat.succ_le_succ (Nat.le_trans hp.length hlt)
    · rw [Class.findMethod_eq, line, List.findSome?_cons, Option.bind_some, hp.findMethod]
      cases methods.get? key <;> rfl

/-- The class behind the value and those above it are each younger than the next. -/
def Value.Ordered (k : Nat) : Value → Prop
  | .classDef c | .object _ c => c.Ordered k
  | _ => True

structure Machine.Ordered (m : Machine) : Prop where
  frames : ∀ {i name v}, m.frames.read i name = some v → v.Ordered m.nextRef
  fields : ∀ {id name v}, (m.fields id).get? name = some v → v.Ordered m.nextRef

theorem Machine.Bound.inOrder {born : Closure → Value → Prop} {m : Machine} (h : m.Bound ⟨born, True⟩) : m.Ordered := by
  have hvalue : ∀ {v : Value}, v.Fine ⟨born, True⟩ m → v.Ordered m.nextRef := by
    intro v hv
    cases v with
    | classDef c => exact hv.rooted.ordered trivial
    | object id c => exact hv.rooted.ordered trivial
    | _ => trivial
  exact ⟨fun hr => hvalue (h.frames hr), fun hr => hvalue (h.fields hr)⟩

/-- One record is right about a session throughout, and so is the order of classes. -/
structure Session.LeadsBack (start : Session) (lines : List Line) (o : Links) : Prop where
  /-- Every frame that was made. -/
  made : ∀ {site outer i}, .entered site outer i ∈ (Trace.session lines start []).2 → o.Grounds (i :: outer)
  /-- Whenever a variable is about to be read or assigned. -/
  during : ∀ {ref m}, .referred ref m ∈ (Trace.session lines start []).2 → o.Explains m
  /-- After each text. -/
  after : ∀ {done rest s}, done ++ rest = lines → start.runAll done = some s →
    o.Explains s.machine ∧ s.machine.Ordered
  /-- At every moment of every text. -/
  moments : ∀ {ν}, start.Passes lines ν → ν.machine.Ordered
  walks : ∀ {i rest}, o.Leads i rest → o.Walks i rest
  above : ∀ {c : Class} {k}, c.Ordered k → c.Walks

theorem Session.Passes.append {s : Session} {lines : List Line} {ν : Moment} (h : s.Passes lines ν)
    (rest : List Line) : s.Passes (lines ++ rest) ν := by
  induction h with
  | now hc hw => exact .now hc hw
  | later hr _ ih => exact .later hr ih

/-- In a session of hosts that make no objects up and give no identities back, one record of older frames is right
about all environments at all times, whatever variables and classes are declared anew. -/
theorem Session.chains_lead_back (host : Host) (output diagnostics : Sink) {lines : List Line}
    (hh : ∀ line ∈ lines, line.host.Sincere ∧ line.host.Steady) :
    (Trace.session lines (.start host output diagnostics) []).1 =
      (Session.start host output diagnostics).runAll lines ∧
    ∃ o : Links, LeadsBack (.start host output diagnostics) lines o := by
  have hhonest : ∀ line ∈ lines, line.host.Honest := fun line hline => (hh line hline).1.toHonest
  have hstart : Lineal ⟨(Session.start host output diagnostics).machine, []⟩ := lineal_start host output
  obtain ⟨m, hg⟩ := good_session (s := .start host output diagnostics) hhonest (good_start host output)
  obtain ⟨m', hl⟩ := lineal_session hhonest hstart
  obtain ⟨o, ho⟩ := exists_links hg hl
  have hhost : ∀ {μ}, (Session.start host output diagnostics).Passes lines μ → μ.host.Sincere ∧ μ.host.Steady := by
    intro μ hμ
    obtain ⟨line, hline, hhost⟩ := hμ.exists_host
    rw [hhost]
    exact hh line hline
  have hhonored := Contract.binding_honored (S := (Session.start host output diagnostics).Passes lines)
    (fun hμ hp => hμ.part hp) (fun hμ => (hhost hμ).1) fun hμ (_ : True) => (hhost hμ).2
  have hbound : ∀ terms, (Session.start host output diagnostics).machine.Bound terms :=
    fun terms => Machine.bound_start terms host output
  obtain ⟨last, -, hfits⟩ := hhonored.fits_session (fun hc => Stmt.apt_of_compile hc) (hbound _) fun _ hν => hν
  refine ⟨session_fst _ _ _, o, ?_⟩
  constructor
  case made =>
    intro site outer i he
    obtain ⟨sites, hc⟩ := (hl.younger he).1
    exact ho _ ⟨_, .scope he hc⟩
  case during => exact fun hr => (hl.recalled hr).explains ho
  case after =>
    rintro done rest s rfl hs
    obtain ⟨log, hdone, hsuffix⟩ := lineal_done hhonest hstart hs
    refine ⟨hdone.toKnows.explains fun env he => ho env (he.mono hsuffix), ?_⟩
    have hgood := hhonored.good_runAll (fun hc => Stmt.apt_of_compile hc) (hbound _) (fun _ hν => hν.append rest) hs
    exact hgood.inOrder
  case moments => exact fun hν => (hfits _ hν).good.inOrder
  case walks => exact fun h => h.walks
  case above => exact fun h => h.walks

/-- The identities of the class of a global variable and of those above it, or the environment of a function. -/
def Machine.origin? (m : Machine) (name : String) : Option (List Nat) :=
  match m.global? name with
  | some (.classDef c) | some (.object _ c) => some (c.line.map (·.id))
  | some (.function _ f) => some f.env
  | _ => none

/-- One script, which puts a new class below the one that has its name. -/
def aliasScripts : Host where
  loader := .files
  read path := if path = "below" then .ok "B = A; class A < B \x7b \x7d" else .error .notFound

/-- A class is made anew below itself under another name, in a text and twice in a script that is there for one text,
and then its name goes to a text. A function that is kept outlives the variable of the one that made it. One text is
rejected, and the last one fails. -/
def aliasText : List Session.Line :=
  [⟨{}, 40, "class A \x7b m() \x7b return \"first\"; \x7d \x7d var B = A;"⟩,
   ⟨{}, 40, "class A < B \x7b n() \x7b return super.m(); \x7d \x7d"⟩,
   ⟨{}, 40, "B = A; class A < B \x7b \x7d var a = A(); class A < A \x7b \x7d"⟩,
   ⟨aliasScripts, 40, "\x7b execute \"below\"; \x7d execute \"below\"; var a = A(); var A = \"text\"; " ++
    "print a.n(); print A;"⟩,
   ⟨{}, 40, "fun make() \x7b var x = \"x\"; fun more() \x7b x = x + x; return x; \x7d return more; \x7d"⟩,
   ⟨{}, 40, "var kept = make();"⟩,
   ⟨{}, 40, "fun make() \x7b return kept(); \x7d print make(); B = a.m; print kept(); print B(); print a.none;"⟩]

theorem Session.chains_lead_back_aliasText :
    (∀ line ∈ aliasText, line.host.Sincere ∧ line.host.Steady) ∧
    ((Session.start {} {} {}).runAll aliasText).map
        (fun s => (s.machine.output.text, s.errors.length, ["A", "a", "make", "kept", "B"].map s.machine.origin?)) =
      some ("first\ntext\nxx\nxxxx\nfirst\n", 2, [none, some [3, 2, 1, 0], some [0], some [9, 0], some [12, 0]]) ∧
    (Trace.session aliasText (.start {} {} {}) []).1 = (Session.start {} {} {}).runAll aliasText ∧
    ∃ o : Links, LeadsBack (.start {} {} {}) aliasText o := by
  have hscripts : aliasScripts.Sincere ∧ aliasScripts.Steady := ⟨⟨⟨nofun, nofun⟩, nofun, nofun⟩, nofun⟩
  have hplain : ({} : Host).Sincere ∧ ({} : Host).Steady := ⟨Host.sincere_default, nofun⟩
  have hh : ∀ line ∈ aliasText, line.host.Sincere ∧ line.host.Steady := by simp [aliasText, hscripts, hplain]
  exact ⟨hh, by decide +kernel, Session.chains_lead_back {} {} {} hh⟩

end Lox
