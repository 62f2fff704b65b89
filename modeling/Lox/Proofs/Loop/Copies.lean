import Lox.Proofs.Loop.Direct
import Lox.Proofs.Parse.ExpressionCompleteness
import Lox.Proofs.Regular
import Lox.Proofs.Scope.Agreement

/-!
# The statement and the loop, each with its own distances

A `for` statement is analysed in one scope, and the loop that the parser makes of it in the scopes that its blocks
have. The distances differ, so the statement is a copy of the loop's parts with identities of its own. With both
analyses on record the parts are twins.
-/

namespace Lox
open Eval Scoping Analysis

namespace ForLoop

/-! ## What the grammar allows -/

/-- The parts of the statement stand in the tokens in their places. -/
inductive Written (dangling : Bool) : List Token → ForLoop → Prop
  | mk {kw lp semi rp : Token} {is cs us ts : List Token} {f : ForLoop} : kw.kind = .keyword .forKw →
      lp.kind = .symbol .leftParen → Grammar.Derives true .forInit is f.init →
      Grammar.Derives true .optional cs f.cond → semi.kind = .symbol .semicolon →
      Grammar.Derives true .optional us f.increment → rp.kind = .symbol .rightParen →
      Grammar.Derives true (.statement dangling) ts f.body →
      Written dangling (kw :: lp :: (is ++ (cs ++ semi :: (us ++ rp :: ts)))) f

/-- What a statement that was read has of its own. Only its initializer can declare a name, and not `super`. -/
structure Proper (f : ForLoop) : Prop where
  init : ∀ first ∈ f.init, first.WellFormed ∧ "super" ∉ first.declared
  cond : Expr.OptionWellFormed f.cond
  increment : Expr.OptionWellFormed f.increment
  body : f.body.WellFormed ∧ f.body.declared = []

/-- What starts with `for` is derived as a `for` statement, and the tree is the loop. -/
theorem derives_iff {dangling : Bool} {ts : List Token} {s : Stmt} :
    (∃ kw rest, ts = kw :: rest ∧ kw.kind = .keyword .forKw) ∧ Grammar.Derives true (.statement dangling) ts s ↔
      ∃ f, Written dangling ts f ∧ s = f.desugared := by
  constructor
  · rintro ⟨⟨kw, rest, rfl, hkw⟩, h⟩
    -- every other statement has another first token
    cases h with
    | forStmt _ hlp hi hc hsemi hu hrp hb =>
      exact ⟨⟨_, _, _, _⟩, .mk hkw hlp hi hc hsemi hu hrp hb, Grammar.forTree_eq _ _ _ _⟩
    | expression h =>
      have hfirst := h.first rfl
      rw [Parse.nextIs, hkw] at hfirst
      cases hfirst
    | ifStmt hk => cases hkw.symm.trans hk
    | ifElseStmt hk => cases hkw.symm.trans hk
    | printStmt hk => cases hkw.symm.trans hk
    | returnStmt hk => cases hkw.symm.trans hk
    | whileStmt hk => cases hkw.symm.trans hk
    | breakStmt hk => cases hkw.symm.trans hk
    | executeStmt hk => cases hkw.symm.trans hk
    | block hk => cases hkw.symm.trans hk
  · rintro ⟨f, ⟨hkw, hlp, hi, hc, hsemi, hu, hrp, hb⟩, rfl⟩
    have hfor := Grammar.Derives.forStmt hkw hlp hi hc hsemi hu hrp hb
    rw [Grammar.forTree_eq] at hfor
    exact ⟨⟨_, _, rfl, hkw⟩, hfor⟩

/-- An initializer declares at most the one name it is given. -/
theorem not_declared_of_derives {ts : List Token} {init : Option Stmt} (h : Grammar.Derives true .forInit ts init)
    (hts : ∀ t ∈ ts, t.kind = .identifier → t.Free) : ∀ first ∈ init, "super" ∉ first.declared := by
  have hname : ∀ {name : Token}, name ∈ ts → name.kind = .identifier → "super" ∉ [name.lexeme] := by
    intro name hn hk hs
    exact (hts name hn hk).2 (List.mem_singleton.1 hs).symm
  rintro first hf
  cases h with
  | initVar h =>
    cases hf
    cases h with
    | varDecl _ hk _ => exact hname (by simp) hk
    | varInit _ hk _ _ _ => exact hname (by simp) hk
  | initExpr h =>
    cases hf
    cases h
    exact List.not_mem_nil
  | initNone => cases hf

theorem Written.proper {dangling : Bool} {ts : List Token} {f : ForLoop} (h : Written dangling ts f) {source : String}
    (hts : ∀ t ∈ ts, t ∈ Item.tokens (Token.scan source)) : f.Proper := by
  cases h with
  | mk hkw hlp hi hc hsemi hu hrp hb =>
    have hspelt := fun t ht => Item.spelt_of_mem_tokens (hts t ht)
    have hfree := fun t ht => Item.free_of_mem_tokens (hts t ht)
    simp only [List.forall_mem_cons, List.forall_mem_append] at hspelt hfree
    obtain ⟨-, -, hsi, hsc, -, hsu, -, hsb⟩ := hspelt
    refine ⟨fun first hf => ⟨?_, not_declared_of_derives hi hfree.2.2.1 first hf⟩, hc.wellFormed hsc,
      hu.wellFormed hsu, ?_⟩
    · have hw := hi.wellFormed hsi
      rw [Option.mem_def.1 hf] at hw
      exact hw
    · obtain ⟨hw, hd⟩ := hb.wellFormed hsb
      exact ⟨hw, Stmt.declared_eq_nil hw hd⟩

/-! ## Visits -/

variable (ctx : Context) (f : ForLoop) (a : Analysis)

/-- The analysis where the condition is, from one where the initializer is. -/
def begun : Analysis := Stmt.resolveAll ctx f.init.toList a

/-- The analysis behind the condition. -/
def tested : Analysis := Expr.resolveOption ctx f.cond (f.begun ctx a)

theorem outlines_tested : outlines (f.tested ctx a).scopes = outlines (f.begun ctx a).scopes :=
  Expr.outlines_resolveOption ctx f.cond _

/-- The visits in the body and in the increment. -/
def turnVisits (sites : List Site) : List Visit :=
  f.body.visits ctx sites a ++ Expr.visitsOption ctx sites f.increment (f.body.resolve ctx a)

/-- The visits in all parts, if the body starts where `enter` leads to from behind the condition. -/
def visits (enter : Analysis → Analysis) (outer inner : List Site) : List Visit :=
  Stmt.visitsAll ctx outer f.init.toList a ++ (Expr.visitsOption ctx outer f.cond (f.begun ctx a) ++
    f.turnVisits { ctx with inLoop := true } (enter (f.tested ctx a)) inner)

def nodes : List Nat :=
  Stmt.nodesAll f.init.toList ++ (Expr.nodesOption f.cond ++ (f.body.nodes ++ Expr.nodesOption f.increment))

theorem ids_visits (enter : Analysis → Analysis) (outer inner : List Site) :
    (ids (f.visits ctx a enter outer inner)).Perm f.nodes := by
  unfold visits turnVisits nodes
  rw [ids_append, ids_append, ids_append]
  exact (Stmt.ids_visitsAll ctx outer _ _).append ((Expr.ids_visitsOption ctx outer _ _).append
    ((f.body.ids_visits _ inner _).append (Expr.ids_visitsOption _ inner _ _)))

theorem distances_resolve (sites : List Site) :
    (f.resolve ctx a).distances = (f.visits ctx a.openScope id sites sites).foldl record a.distances := by
  unfold resolve visits turnVisits
  dsimp only
  rw [distances_closeScope, Expr.distances_resolveOption _ sites, f.body.distances_resolve _ sites,
    Expr.distances_resolveOption ctx sites, Stmt.distances_resolveAll ctx sites, List.foldl_append,
    List.foldl_append, List.foldl_append]
  rfl

/-- Where the loop that the parser makes has its initializer. -/
def opened : Analysis :=
  match f.init with
  | none => a
  | some _ => a.openScope

/-- Where it has its body, from behind the condition. -/
def entered (a : Analysis) : Analysis :=
  match f.increment with
  | none => a
  | some _ => a.openScope

theorem visits_round (sites : List Site) : ∃ inner, ∀ a,
    f.round.visits ctx sites a = f.turnVisits ctx (f.entered a) inner := by
  unfold round entered turnVisits
  cases f.increment with
  | none => exact ⟨sites, fun _ => (List.append_nil _).symm⟩
  | some e =>
    refine ⟨.block [f.body, .expr e] :: sites, fun a => ?_⟩
    rw [Stmt.visits, Stmt.visitsAll, Stmt.visitsAll, Stmt.visitsAll, List.append_nil]
    rfl

theorem visits_loop (sites : List Site) : ∃ inner, ∀ a, Stmt.visits ctx sites (.loop f.condition f.round) a =
    Expr.visitsOption ctx sites f.cond a ++
      f.turnVisits { ctx with inLoop := true } (f.entered (Expr.resolveOption ctx f.cond a)) inner := by
  obtain ⟨inner, hinner⟩ := f.visits_round { ctx with inLoop := true } sites
  refine ⟨inner, fun a => ?_⟩
  rw [Stmt.visits, hinner]
  unfold condition
  cases f.cond with
  | none => rfl
  | some e => rfl

/-- The blocks of the loop open scopes around its initializer and around its body. -/
theorem visits_desugared (sites : List Site) : ∃ outer inner,
    f.desugared.visits ctx sites a = f.visits ctx (f.opened a) f.entered outer inner := by
  rw [desugared_eq]
  unfold visits tested begun opened
  cases f.init with
  | none =>
    obtain ⟨inner, hinner⟩ := f.visits_loop ctx sites
    exact ⟨sites, inner, hinner a⟩
  | some first =>
    let outer := Site.block [first, .loop f.condition f.round] :: sites
    obtain ⟨inner, hinner⟩ := f.visits_loop ctx outer
    refine ⟨outer, inner, ?_⟩
    dsimp only [Option.toList]
    rw [Stmt.visits, Stmt.visitsAll, Stmt.visitsAll, Stmt.visitsAll, hinner, Stmt.visitsAll, Stmt.visitsAll,
      List.append_nil, List.append_nil]
    rfl

end ForLoop

/-! ## What is on record -/

/-- What the analysis finds is on record if the record has it for every identity, each of which is visited once. -/
theorem Scoping.recorded_of_resolved {R : Record} {vs : List Visit} {nodes : List Nat} {distances : Distances}
    (hids : (ids vs).Perm nodes) (hnodup : nodes.Nodup)
    (hfresh : ∀ i ∈ nodes, distances[i]? = none ∧ i < R.bound)
    (hres : ∀ i ∈ nodes, R.distances[i]? = (vs.foldl record distances)[i]?) : Recorded R vs := by
  intro v hv
  have hi : v.ref.id ∈ nodes := hids.mem_iff.1 (List.mem_map_of_mem hv)
  refine ⟨(hfresh _ hi).2, ?_⟩
  rw [hres _ hi]
  exact getElem?_record_of_mem hv (hids.nodup_iff.2 hnodup) (hfresh _ hi).1

theorem Scoping.Unparented.bindAll {os : List Outline} (h : Unparented os) {names : List String}
    (hn : "super" ∉ names) : Unparented (Outline.bindAll names os) := by
  cases os with
  | nil => rwa [Outline.bindAll_nil]
  | cons o os =>
    rw [Outline.bindAll_cons]
    intro o' ho'
    cases ho'
    exact (if_neg hn).trans (h o rfl)

namespace ForLoop

/-- The same statement with other identities. -/
structure Copy (f g : ForLoop) : Prop where
  init : Option.Rel (Stmt.Matched .copy) f.init g.init
  cond : Option.Rel (Expr.Matched .copy) f.cond g.cond
  increment : Option.Rel (Expr.Matched .copy) f.increment g.increment
  body : f.body.Matched .copy g.body

namespace Copy

variable {R : Record} {ctx : Context} {f g : ForLoop} {a : Analysis} {outer outer' : List Site}

/-- Up to the condition: the initializer, and the scopes that it leaves. -/
theorem begun (h : f.Copy g) (hf : f.Proper) (ha : Unparented (outlines a.scopes))
    (hr : Recorded R (Stmt.visitsAll ctx outer f.init.toList (f.opened a)))
    (hr' : Recorded R (Stmt.visitsAll ctx outer' g.init.toList a.openScope)) :
    Option.Rel (Stmt.Twin R f.outer) f.init g.init ∧
      (f.begun ctx (f.opened a)).Aligned f.outer (g.begun ctx a.openScope) ∧
      Unparented (outlines (f.begun ctx (f.opened a)).scopes) ∧
      Unparented (outlines (g.begun ctx a.openScope).scopes) := by
  have hi := h.init
  have hp := hf.init
  unfold ForLoop.begun ForLoop.outer opened at *
  generalize f.init = i at *
  generalize g.init = i' at *
  cases hi with
  | none => exact ⟨.none, .second (.rest _) ha ha, ha, .empty _⟩
  | @some first first' hs =>
    obtain ⟨hw, hsuper⟩ := hp first rfl
    have halign : a.openScope.Aligned [.both] a.openScope := .both _ (.rest _)
    have hv := (recorded_append.1 hr).1
    have hv' := (recorded_append.1 hr').1
    refine ⟨.some (first.twin hs hw (.inl trivial) halign hv hv'), halign.stmt ctx hs (.inl trivial), ?_, ?_⟩
    · show Unparented (outlines (first.resolve ctx _).scopes)
      rw [first.outlines_resolve]
      exact (Unparented.empty _).bindAll hsuper
    · show Unparented (outlines (first'.resolve ctx _).scopes)
      rw [first'.outlines_resolve, hs.declared]
      exact (Unparented.empty _).bindAll hsuper

/-- Where both analyses are on record, the loop and the statement have twins for parts. -/
theorem twin (h : f.Copy g) (hf : f.Proper) (ha : Unparented (outlines a.scopes)) {inner inner' : List Site}
    (hr : Recorded R (f.visits ctx (f.opened a) f.entered outer inner))
    (hr' : Recorded R (g.visits ctx a.openScope id outer' inner')) : f.Twin R g := by
  obtain ⟨hvi, hv⟩ := recorded_append.1 hr
  obtain ⟨hvc, hv⟩ := recorded_append.1 hv
  obtain ⟨hvb, hvu⟩ := recorded_append.1 hv
  obtain ⟨hvi', hv'⟩ := recorded_append.1 hr'
  obtain ⟨hvc', hv'⟩ := recorded_append.1 hv'
  obtain ⟨hvb', hvu'⟩ := recorded_append.1 hv'
  obtain ⟨hinit, hbegun, hun, hun'⟩ := h.begun hf ha hvi hvi'
  have htested : (f.tested ctx (f.opened a)).Aligned f.outer (g.tested ctx a.openScope) := by
    unfold Analysis.Aligned
    rwa [outlines_tested, outlines_tested]
  rw [← outlines_tested] at hun hun'
  have hentered : (f.entered (f.tested ctx (f.opened a))).Aligned f.inner (g.tested ctx a.openScope) := by
    unfold ForLoop.entered ForLoop.inner
    cases f.increment with
    | none => exact htested
    | some e => exact .first htested hun hun'
  have hdeclared : f.inner.Solid ∨ f.body.declared = [] := .inr hf.body.2
  exact {
    init := hinit
    cond := Expr.twin_option h.cond hf.cond hbegun hvc hvc'
    increment := Expr.twin_option h.increment hf.increment (hentered.stmt _ h.body hdeclared) hvu hvu'
    body := f.body.twin h.body hf.body.1 hdeclared hentered hvb hvb' }

end Copy
end ForLoop

end Lox
