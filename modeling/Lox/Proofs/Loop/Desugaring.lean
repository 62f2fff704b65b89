import Lox.Proofs.Loop.Copies
import Lox.Proofs.Scope.Sessions

/-!
# The loop that the parser makes means the statement

Main statement: what the parser reads from `for` on is the loop of some `for` statement, and from every machine the
loop ends as the statement does. They end with the same result or error, have written the same, and leave machines
with the same variables, which no program that runs later can tell apart.
-/

namespace Lox
open Eval Scoping
open Grammar (Derives)

/-! ## A machine and itself -/

/-- Each of the first `size` frames goes with itself. -/
def World.same (size : Nat) : World where
  link i j := j = i ∧ i < size
  first _ := False
  second _ := False

theorem World.spans_same {size : Nat} {env : Env} (h : ∀ i ∈ env, i < size) : (World.same size).Spans [] env env := by
  refine .rest ?_
  induction env with
  | nil => exact .nil
  | cons i env ih =>
    obtain ⟨hi, henv⟩ := List.forall_mem_cons.1 h
    exact .cons ⟨rfl, hi⟩ (ih henv)

theorem Value.Framed.twin {R : Record} {size : Nat} {v : Value} (h : v.Framed size) : v.Twin R (.same size) v := by
  have hclass : ∀ c : Class, (∀ name f, c.findMethod name = some f → ∀ i ∈ f.env, i < size) →
      c.Twin R (.same size) c := by
    refine fun c hc => ⟨rfl, rfl, fun name => ?_⟩
    cases hf : c.findMethod name with
    | none => exact .none
    | some f =>
      exact .some ⟨⟨[], World.spans_same (hc name f hf), trivial, Routine.twin_self (.both .nil) f.decl⟩, rfl⟩
  cases v with
  | nil => exact .nil
  | bool b => exact .bool b
  | number x => exact .number x
  | string s => exact .string s
  | native f => exact .native f
  | function id f => exact .function id ⟨⟨[], World.spans_same h, trivial, Routine.twin_self .nil f.decl⟩, rfl⟩
  | classDef c => exact .classDef (hclass c h)
  | object id c => exact .object id (hclass c h)

theorem Value.twin_option_same {R : Record} {size : Nat} {o : Option Value} (h : ∀ v, o = some v → v.Framed size) :
    Option.Rel (Value.Twin R (.same size)) o o := by
  cases o with
  | none => exact .none
  | some v => exact .some (h v rfl).twin

/-- Such a machine is its own twin. -/
theorem Machine.Framed.twin {m : Machine} (h : m.Framed) :
    m.Twin ⟨m.distances, m.nextNode⟩ (.same m.frames.size) [] m where
  frames := {
    lt := by
      rintro i _ ⟨rfl, hi⟩
      exact ⟨hi, hi⟩
    unique := by
      rintro i _ k _ ⟨rfl, -⟩ ⟨rfl, -⟩
      exact Iff.rfl
    read := by
      rintro i _ name ⟨rfl, -⟩
      exact Value.twin_option_same fun _ => h.frames
    first := False.elim
    second := False.elim
    globals := ⟨rfl, h.globals⟩ }
  env := World.spans_same h.env
  objects := rfl
  fields _ _ := Value.twin_option_same fun _ => h.fields
  nextRef := rfl
  ticks := rfl
  requested := rfl
  nextNode := rfl
  distances := rfl
  output := rfl
  warnings := rfl
  bound := Nat.le_refl _
  record _ _ := rfl

/-! ## What can be told of a run -/

/-- The error in which a run ends, if any, and all that was written. A run that gives up shows nothing. -/
def Eval.shown {α : Type} : EStateM.Result Stop Machine α → Option (Option Error × Sink)
  | .ok _ m => some (none, m.output)
  | .error (.failed e) m => some (some e, m.output)
  | .error .exhausted _ => none

/-- The same number, string and so on, or what has the same identity and the same name. -/
inductive Value.Alike : Value → Value → Prop
  | nil : Value.Alike .nil .nil
  | bool (b : Bool) : Value.Alike (.bool b) (.bool b)
  | number (x : Float) : Value.Alike (.number x) (.number x)
  | string (s : String) : Value.Alike (.string s) (.string s)
  | native (f : Native) : Value.Alike (.native f) (.native f)
  | function (id : Nat) {f f' : Closure} : f'.name = f.name → Value.Alike (.function id f) (.function id f')
  | classDef {c c' : Class} : c'.id = c.id → c'.name = c.name → Value.Alike (.classDef c) (.classDef c')
  | object (id : Nat) {c c' : Class} : c'.id = c.id → c'.name = c.name → Value.Alike (.object id c) (.object id c')

/-- The machines have the same output, and the same variables in the first `size` frames. Whatever statements
run next where they are, with the same depth they end alike. -/
structure Machine.Alike (host : Host) (size : Nat) (m m' : Machine) : Prop where
  env : m'.env = m.env
  output : m'.output = m.output
  frames : ∀ i < size, ∀ name, Option.Rel Value.Alike (m.frames.read i name) (m'.frames.read i name)
  fields : ∀ id name, Option.Rel Value.Alike ((m.fields id).get? name) ((m'.fields id).get? name)
  next : ∀ n ss, shown (executeAll host n ss m') = shown (executeAll host n ss m)

/-- The same way to end. A value that is returned is put in a variable to see what can be done with it. -/
inductive Flow.Alike (host : Host) (m m' : Machine) : Flow → Flow → Prop
  | normal : Flow.Alike host m m' .normal .normal
  | broke : Flow.Alike host m m' .broke .broke
  | returned {v v' : Value} : v.Alike v' →
      (∀ name n ss, shown ((do define name v'; executeAll host n ss) m') =
        shown ((do define name v; executeAll host n ss) m)) →
      Flow.Alike host m m' (.returned v) (.returned v')

/-- Both runs end, in the same flow or in the same error, on machines that are alike. -/
inductive Eval.EndsLike (host : Host) (size : Nat) :
    EStateM.Result Stop Machine Flow → EStateM.Result Stop Machine Flow → Prop
  | ok {flow flow' : Flow} {m m' : Machine} : flow.Alike host m m' flow' → m.Alike host size m' →
      EndsLike host size (.ok flow m) (.ok flow' m')
  | failed (e : Error) {m m' : Machine} : m.Alike host size m' →
      EndsLike host size (.error (.failed e) m) (.error (.failed e) m')

section

variable {host : Host} {R : Record} {W : World} {size : Nat} {m m' : Machine}

theorem Eval.TwinEnds.shown {α : Type} {σ : Shape} {A : World → α → α → Prop}
    {r r' : EStateM.Result Stop Machine α} (h : TwinEnds R W σ A r r') : Eval.shown r' = Eval.shown r := by
  cases h with
  | ok _ _ hm => exact congrArg (fun sink => some (none, sink)) hm.output
  | failed e _ hm => exact congrArg (fun sink => some (some e, sink)) hm.output
  | exhausted => rfl

theorem Value.Twin.alike {v v' : Value} (h : v.Twin R W v') : v.Alike v' := by
  cases h with
  | nil => exact .nil
  | bool b => exact .bool b
  | number x => exact .number x
  | string s => exact .string s
  | native f => exact .native f
  | function id hf => exact .function id hf.name
  | classDef hc => exact .classDef hc.id hc.name
  | object id hc => exact .object id hc.id hc.name

theorem Value.Twin.alike_option {o o' : Option Value} (h : Option.Rel (Value.Twin R W) o o') :
    Option.Rel Value.Alike o o' := by
  cases h with
  | none => exact .none
  | some hv => exact .some hv.alike

theorem Machine.Twin.alike (h : m.Twin R W [] m') (hb : host.Impartial) (hW : (World.same size).Grows W)
    (henv : m'.env = m.env) : m.Alike host size m' where
  env := henv
  output := h.output
  frames _ hi name := Value.Twin.alike_option (h.frames.read name (hW.link ⟨rfl, hi⟩))
  fields id name := Value.Twin.alike_option (h.fields id name)
  next n ss := ((runsTwin hb n).executeAll (Stmt.twinAll_self .nil ss) m m' h).shown

theorem Flow.Twin.alike {flow flow' : Flow} (h : flow.Twin R W flow') (hm : m.Twin R W [] m')
    (hb : host.Impartial) : flow.Alike host m m' flow' := by
  cases h with
  | normal => exact .normal
  | broke => exact .broke
  | returned hv =>
    refine .returned hv.alike fun name n ss => ?_
    have hdefine := Eval.Twin.define (σ := []) trivial name hv
    exact (hdefine.bind (fun _ _ _ _ => (runsTwin hb n).executeAll (Stmt.twinAll_self .nil ss)) m m' hm).shown

theorem Eval.TwinEnds.endsLike {r r' : EStateM.Result Stop Machine Flow}
    (h : TwinEnds R (.same size) [] (Flow.Twin R) r r') (hb : host.Impartial)
    (henv : (Ending.state r').env = (Ending.state r).env) (hr : Eval.shown r ≠ none) : EndsLike host size r r' := by
  cases h with
  | ok hW hflow hm => exact .ok (hflow.alike hm hb) (hm.alike hb hW henv)
  | failed e hW hm => exact .failed e (hm.alike hb hW henv)
  | exhausted => exact absurd rfl hr

/-- Where more depth changes nothing. -/
theorem Eval.Extends.eq_of_shown {α : Type} {p q : Eval α} (h : Extends p q) (hp : Eval.shown (p m) ≠ none) :
    q m = p m := by
  rcases h m with ⟨m₁, he⟩ | he
  · rw [he] at hp
    exact absurd rfl hp
  · exact he

end

/-! ## The statement and its loop -/

namespace ForLoop

/-- The loop of `f` is about to run on the machine, with what was found of its names at that place of the analysis.
The same is on record for the statement `g`. No statement stands directly in the scope of a superclass. -/
structure Prepared (f g : ForLoop) (ctx : Context) (a : Analysis) (m : Machine) : Prop where
  framed : m.Framed
  place : Unparented (outlines a.scopes)
  nodup : f.nodes.Nodup ∧ g.nodes.Nodup
  fresh : ∀ i ∈ f.nodes ++ g.nodes, a.distances[i]? = none ∧ i < m.nextNode
  loop : ∀ i ∈ f.nodes, m.distances[i]? = (f.desugared.resolve ctx a).distances[i]?
  statement : ∀ i ∈ g.nodes, m.distances[i]? = (g.resolve ctx a).distances[i]?

/-- The machine with what the analysis finds at that place of the names in the statement on record beside the rest. -/
def onRecord (g : ForLoop) (ctx : Context) (a : Analysis) (next : Nat) (m : Machine) : Machine :=
  { m with nextNode := next, distances := (g.visits ctx a.openScope id [] []).foldl record m.distances }

variable {f g : ForLoop} {ctx : Context} {a : Analysis} {m : Machine}

theorem framed_onRecord (h : m.Framed) (g : ForLoop) (ctx : Context) (a : Analysis) (next : Nat) :
    (g.onRecord ctx a next m).Framed :=
  ⟨h.globals, h.env, h.frames, h.fields⟩

theorem Prepared.twin (h : f.Prepared g ctx a m) (hf : f.Proper) (hg : f.Copy g) :
    f.Twin ⟨m.distances, m.nextNode⟩ g := by
  obtain ⟨hfresh, hfresh'⟩ := List.forall_mem_append.1 h.fresh
  have hloop := h.loop
  have hstatement := h.statement
  rw [f.desugared.distances_resolve ctx []] at hloop
  rw [g.distances_resolve ctx a []] at hstatement
  obtain ⟨outer, inner, hv⟩ := f.visits_desugared ctx a []
  rw [hv] at hloop
  exact hg.twin hf h.place (recorded_of_resolved (f.ids_visits ..) h.nodup.1 hfresh hloop)
    (recorded_of_resolved (g.ids_visits ..) h.nodup.2 hfresh' hstatement)

/-- The loop with its scopes ends as the statement does. -/
theorem Twin.endsLike (h : f.Twin ⟨m.distances, m.nextNode⟩ g) (hm : m.Framed) {host : Host} (hb : host.Impartial)
    {n : Nat} (hr : shown (f.scopedRun host n m) ≠ none) :
    EndsLike host m.frames.size (f.scopedRun host n m) (g.run host n m) := by
  have ha := Effects.restoring_allow hb.restores
  refine (h.run hb n _ m m hm.twin).endsLike hb ?_ hr
  have henv' : (Ending.state (g.run host n m)).env = m.env :=
    (Effects.Bounds.inScope ha (.loop ha g (.turn ha g) n)).env_state m
  rw [henv', (Effects.Bounds.scopedRun ha f n).env_state]

/-- So does the loop that the parser makes. Whichever of the two runs ends, the other ends too. -/
theorem Twin.execute_endsLike (h : f.Twin ⟨m.distances, m.nextNode⟩ g) (hm : m.Framed) {host : Host}
    (hb : host.Impartial) (n : Nat) :
    (shown (execute host n f.desugared m) ≠ none →
      EndsLike host m.frames.size (execute host n f.desugared m) (g.run host n m)) ∧
    (shown (g.run host n m) ≠ none →
      EndsLike host m.frames.size (execute host (n + 8) f.desugared m) (g.run host n m)) := by
  refine ⟨fun hr => ?_, fun hr => ?_⟩
  · have hrun := (f.desugared_extends host n).eq_of_shown hr
    rw [← hrun] at hr ⊢
    exact h.endsLike hm hb hr
  · have hr' : shown (f.scopedRun host n m) ≠ none := by
      rwa [← (h.run hb n _ m m hm.twin).shown]
    rw [(f.extends_desugared host n).eq_of_shown hr']
    exact h.endsLike hm hb hr'

/-- What the parser reads from `for` on is the loop of a `for` statement. Nothing that the body declares is in scope
behind it. From every machine on which the loop and its statement are prepared, whichever of the two runs ends,
the other ends too, and they end alike. -/
theorem execute_desugared {host : Host} (hb : host.Impartial) {source : String} {ts : List Token}
    (hts : ∀ t ∈ ts, t ∈ Item.tokens (Token.scan source)) (dangling : Bool) :
    (∀ s, (∃ kw rest, ts = kw :: rest ∧ kw.kind = .keyword .forKw) ∧
        Grammar.Derives true (.statement dangling) ts s ↔ ∃ f, Written dangling ts f ∧ s = f.desugared) ∧
    ∀ f, Written dangling ts f →
      (∀ ctx a, outlines (f.body.resolve ctx a).scopes = outlines a.scopes) ∧
      ∀ g ctx a m, f.Copy g → f.Prepared g ctx a m → ∀ n,
        (shown (execute host n f.desugared m) ≠ none →
          EndsLike host m.frames.size (execute host n f.desugared m) (g.run host n m)) ∧
        (shown (g.run host n m) ≠ none →
          EndsLike host m.frames.size (execute host (n + 8) f.desugared m) (g.run host n m)) := by
  refine ⟨fun s => derives_iff, fun f hw => ?_⟩
  have hf := hw.proper hts
  refine ⟨fun ctx a => ?_, fun g ctx a m hg h n => (h.twin hf hg).execute_endsLike h.framed hb n⟩
  rw [f.body.outlines_resolve, hf.body.2]
  rfl

/-- A machine that has read a text, and no more, has all its frames. -/
theorem framed_compile (host : Host) (output : Sink) (source : String) :
    ((Machine.start host output).compile source).2.Framed := by
  have hc := (Trace.compiled (Machine.start host output) source).after (s := ⟨Machine.start host output, []⟩)
    (A := Trace.nothing) (Trace.good_start host output)
  have henv : ((Machine.start host output).compile source).2.env = Machine.globals := hc.env
  generalize ((Machine.start host output).compile source).2 = m at hc henv
  have hhere : Trace.Here ⟨m, []⟩ [] [] := ⟨hc.good, by rw [henv]; exact .globals, by rw [henv]; trivial, nofun⟩
  exact hhere.framed

/-- A loop whose body makes a closure over the loop variable. -/
def capturingText : String := "for (var i = true; i; i = nil) \x7b fun f() \x7b print i; \x7d f(); \x7d"

def capturingTokens : List Token :=
  [⟨.keyword .forKw, "for", 1⟩, ⟨.symbol .leftParen, "(", 1⟩, ⟨.keyword .varKw, "var", 1⟩, ⟨.identifier, "i", 1⟩,
    ⟨.symbol .equal, "=", 1⟩, ⟨.keyword .trueKw, "true", 1⟩, ⟨.symbol .semicolon, ";", 1⟩, ⟨.identifier, "i", 1⟩,
    ⟨.symbol .semicolon, ";", 1⟩, ⟨.identifier, "i", 1⟩, ⟨.symbol .equal, "=", 1⟩, ⟨.keyword .nilKw, "nil", 1⟩,
    ⟨.symbol .rightParen, ")", 1⟩, ⟨.symbol .leftBrace, "\x7b", 1⟩, ⟨.keyword .funKw, "fun", 1⟩,
    ⟨.identifier, "f", 1⟩, ⟨.symbol .leftParen, "(", 1⟩, ⟨.symbol .rightParen, ")", 1⟩,
    ⟨.symbol .leftBrace, "\x7b", 1⟩, ⟨.keyword .printKw, "print", 1⟩, ⟨.identifier, "i", 1⟩,
    ⟨.symbol .semicolon, ";", 1⟩, ⟨.symbol .rightBrace, "\x7d", 1⟩, ⟨.identifier, "f", 1⟩,
    ⟨.symbol .leftParen, "(", 1⟩, ⟨.symbol .rightParen, ")", 1⟩, ⟨.symbol .semicolon, ";", 1⟩,
    ⟨.symbol .rightBrace, "\x7d", 1⟩]

/-- The statement, with identities from `k` on. An assignment uses up two of them. -/
def capturing (k : Nat) : ForLoop where
  init := some (.varDecl ⟨.identifier, "i", 1⟩ (some (.literal (.bool true))))
  cond := some (.var k ⟨.identifier, "i", 1⟩)
  increment := some (.assign (k + 2) ⟨.identifier, "i", 1⟩ (.literal .nil))
  body := .block
    [.function ⟨⟨.identifier, "f", 1⟩, [], [.print (.var (k + 3) ⟨.identifier, "i", 1⟩)]⟩,
      .expr (.call (.var (k + 4) ⟨.identifier, "f", 1⟩) ⟨.symbol .rightParen, ")", 1⟩ [])]

/-- The machine that has compiled the text, with the statement on record beside the loop. -/
def capturingMachine : Machine :=
  (capturing 5).onRecord {} { distances := {} } 10 ((Machine.start {} {}).compile capturingText).2

set_option maxRecDepth 20000 in
theorem compile_capturingText :
    ((Machine.start {} {}).compile capturingText).1 = .ok ([(capturing 0).desugared], []) := by
  cbv

theorem written_capturing : Written false capturingTokens (capturing 0) := by
  let i : Token := ⟨.identifier, "i", 1⟩
  let f : Token := ⟨.identifier, "f", 1⟩
  let eq : Token := ⟨.symbol .equal, "=", 1⟩
  let semi : Token := ⟨.symbol .semicolon, ";", 1⟩
  let lp : Token := ⟨.symbol .leftParen, "(", 1⟩
  let rp : Token := ⟨.symbol .rightParen, ")", 1⟩
  let lb : Token := ⟨.symbol .leftBrace, "\x7b", 1⟩
  let rb : Token := ⟨.symbol .rightBrace, "\x7d", 1⟩
  -- a call stands at the bottom of the six levels of operations
  have hexpr : ∀ {ts : List Token} {e : Expr}, Derives true .call ts e → Derives true .expression ts e :=
    fun h => .logicOr (.operand .or (.operand .and (.operand .equality (.operand .comparison (.operand .term
      (.operand .factor (.operandCall h)))))))
  have hvar : ∀ (id : Nat) (t : Token), t.kind = .identifier → Derives true .call [t] (.var id t) :=
    fun id t ht => .callPrimary (.var id ht)
  have hinit : Derives true .varDecl
      (⟨.keyword .varKw, "var", 1⟩ :: i :: eq :: ([⟨.keyword .trueKw, "true", 1⟩] ++ [semi]))
      (.varDecl i (some (.literal (.bool true)))) :=
    .varInit rfl rfl rfl (hexpr (.callPrimary (.literal .true))) rfl
  have hnext : Derives true .expression [i, eq, ⟨.keyword .nilKw, "nil", 1⟩] (.assign 2 i (.literal .nil)) :=
    .assignName 2 rfl rfl (hexpr (.callPrimary (.literal .nil)))
  let printing : List Token := ⟨.keyword .printKw, "print", 1⟩ :: ([i] ++ [semi])
  let routine : List Token := f :: lp :: ([] ++ rp :: lb :: ((printing ++ []) ++ [rb]))
  let calling : List Token := [f] ++ [lp, rp] ++ [semi]
  have hprint : Derives true (.statement false) printing (.print (.var 3 i)) :=
    .printStmt rfl (hexpr (hvar 3 i rfl)) rfl
  have hfun : Derives true .function routine ⟨f, [], [.print (.var 3 i)]⟩ :=
    .function rfl rfl .none rfl rfl (.moreDeclarations (.statement hprint) .noDeclarations) rfl
  have hcall : Derives true .exprStmt calling (.expr (.call (.var 4 f) rp [])) :=
    .exprStmt (hexpr (.callNone (hvar 4 f rfl) rfl rfl)) rfl
  have hbody : Derives true .declarations (⟨.keyword .funKw, "fun", 1⟩ :: routine ++ (calling ++ []))
      [.function ⟨f, [], [.print (.var 3 i)]⟩, .expr (.call (.var 4 f) rp [])] :=
    .moreDeclarations (.funDecl rfl hfun) (.moreDeclarations (.statement (.expression hcall)) .noDeclarations)
  have hblock : Derives true (.statement false)
      (lb :: (⟨.keyword .funKw, "fun", 1⟩ :: routine ++ (calling ++ []) ++ [rb])) (capturing 0).body :=
    .block rfl hbody rfl
  exact Written.mk (f := capturing 0) rfl rfl (.initVar hinit) (.present (hexpr (hvar 0 i rfl))) rfl
    (.present hnext) rfl hblock

theorem copy_capturing (k l : Nat) : (capturing k).Copy (capturing l) where
  init := .some (.varDecl ⟨rfl, rfl, rfl⟩ (.some (.literal _)))
  cond := .some (.var trivial ⟨rfl, rfl, rfl⟩)
  increment := .some (.assign trivial ⟨rfl, rfl, rfl⟩ (.literal _))
  body := .block (.cons (.function (.mk ⟨rfl, rfl, rfl⟩ .nil (.cons (.print (.var trivial ⟨rfl, rfl, rfl⟩)) .nil)))
    (.cons (.expr (.call (.var trivial ⟨rfl, rfl, rfl⟩) ⟨rfl, rfl, rfl⟩ .nil)) .nil))

theorem prepared_capturing : (capturing 0).Prepared (capturing 5) {} { distances := {} } capturingMachine where
  framed := framed_onRecord (framed_compile {} {} capturingText) _ _ _ _
  place := nofun
  nodup := by decide +kernel
  fresh := by decide +kernel
  loop := by decide +kernel
  statement := by decide +kernel

theorem impartial_default : ({} : Host).Impartial := ⟨nofun, nofun, nofun⟩

theorem execute_desugared_capturing :
    ({} : Host).Impartial ∧
    ((Machine.start {} {}).compile capturingText).1 = .ok ([(capturing 0).desugared], []) ∧
    (∀ t ∈ capturingTokens, t ∈ Item.tokens (Token.scan capturingText)) ∧
    Written false capturingTokens (capturing 0) ∧ (capturing 0).Copy (capturing 5) ∧
    (capturing 0).Prepared (capturing 5) {} { distances := {} } capturingMachine ∧
    (shown (execute {} 20 (capturing 0).desugared capturingMachine)).map (·.2.text) = some "true\n" ∧
    EndsLike {} 1 (execute {} 20 (capturing 0).desugared capturingMachine)
      ((capturing 5).run {} 20 capturingMachine) := by
  have hts : ∀ t ∈ capturingTokens, t ∈ Item.tokens (Token.scan capturingText) := by decide +kernel
  have hshown : (shown (execute {} 20 (capturing 0).desugared capturingMachine)).map (·.2.text) = some "true\n" := by
    decide +kernel
  have hne : shown (execute {} 20 (capturing 0).desugared capturingMachine) ≠ none := by
    intro hnone
    rw [hnone] at hshown
    cases hshown
  have hends := (((execute_desugared impartial_default hts false).2 (capturing 0) written_capturing).2 (capturing 5) {}
    _ capturingMachine (copy_capturing 0 5) prepared_capturing 20).1 hne
  have hsize : capturingMachine.frames.size = 1 := by decide +kernel
  rw [hsize] at hends
  exact ⟨impartial_default, compile_capturingText, hts, written_capturing, copy_capturing 0 5, prepared_capturing,
    hshown, hends⟩

end ForLoop

end Lox
