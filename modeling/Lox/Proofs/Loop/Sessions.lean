import Lox.Proofs.Addressing
import Lox.Proofs.Inherit.Super
import Lox.Proofs.Loop.Desugaring
import Lox.Proofs.Match.Sessions

/-!
# Loops of a session

Whenever a session comes to a block or a loop, the machine has all its frames, the names in the statement are on record
as the analysis has found them at that place, and the place is not directly in the scope of a superclass. So if it is
the loop of a `for` statement, the session goes on as the statement means.
-/

namespace Lox
open Eval Scoping

/-! ## Statements that were read -/

theorem Stmt.super_not_declared {s : Stmt} (hw : s.WellFormed) (hr : s.Regular) : "super" ∉ s.declared := by
  cases hd : s.isDeclaration with
  | false =>
    rw [Stmt.declared_eq_nil hw hd]
    exact List.not_mem_nil
  | true =>
    have hname : ∀ {name : Token}, name.Free → "super" ∉ [name.lexeme] :=
      fun hn hs => hn.2 (List.mem_singleton.1 hs).symm
    cases s with
    | varDecl name init => exact hname hr.1
    | function decl => exact hname (Routine.regular_iff.1 hr).1
    | classDecl name superclass methods => exact hname hr.1
    | _ => cases hd

/-- The parts of a loop are as those of a statement that was read. A `while` loop over a block of a declaration and an
expression has the tree of such a loop too, but then the body is a declaration. -/
theorem ForLoop.proper_of_desugared {f : ForLoop} (hw : f.desugared.WellFormed) (hr : f.desugared.Regular)
    (hd : f.body.isDeclaration = false) : f.Proper := by
  rw [desugared_eq] at hw hr
  obtain ⟨init, cond, increment, body⟩ := f
  -- the loop is the whole, or what comes after the initializer
  have hloop : (Stmt.loop (condition ⟨init, cond, increment, body⟩) (round ⟨init, cond, increment, body⟩)).WellFormed ∧
      ∀ first ∈ init, first.WellFormed ∧ "super" ∉ first.declared := by
    cases init with
    | none => exact ⟨hw, nofun⟩
    | some first =>
      refine ⟨hw.2.1, ?_⟩
      rintro _ ⟨⟩
      exact ⟨hw.1, Stmt.super_not_declared hw.1 hr.1⟩
  obtain ⟨⟨hcond, hround, -⟩, hinit⟩ := hloop
  have hbody : body.WellFormed := by
    cases increment with
    | none => exact hround
    | some e => exact hround.1
  refine ⟨hinit, ?_, ?_, hbody, Stmt.declared_eq_nil hbody hd⟩
  · cases cond with
    | none => trivial
    | some e => exact hcond
  · cases increment with
    | none => trivial
    | some e => exact hround.2.1

/-! ## What is written -/

/-- The error in which a run ends, if any, and the text that was written. -/
def Eval.told {α : Type} (r : EStateM.Result Stop Machine α) : Option (Option Error × String) :=
  (shown r).map fun (e, sink) => (e, sink.text)

theorem Eval.Ended.told {α : Type} {π : Pairing} {A : α → α → Prop} {r r' : EStateM.Result Stop Machine α}
    (h : Ended π A r r') (herror : π.error = Eq) : Eval.told r' = Eval.told r := by
  cases h with
  | ok _ hm => exact congrArg (fun text => some (none, text)) hm.output.text
  | failed he hm =>
    rw [herror] at he
    subst he
    exact congrArg (fun text => some (some _, text)) hm.output.text
  | exhausted => rfl

/-! ## Where a loop begins -/

namespace Trace.Stands

variable {log : Log} {st : Stmt} {m : Machine} {ctx : Context} {sites : List Site} {a : Analysis}

/-- A scope that the analysis has for a superclass has a frame that binds `super`. -/
theorem unparented (h : Stands log st m ctx sites a)
    (hentered : ∀ {site env i}, .entered site env i ∈ log → i ≠ Machine.globalFrame)
    (hplain : Plain m.frames m.env) : Unparented (outlines a.scopes) := by
  intro o ho
  have hget : (outlines a.scopes)[0]? = some o := by rwa [← List.head?_eq_getElem?]
  have hmem : o ∈ outlines a.scopes := List.mem_of_getElem? hget
  have hsites : sites ≠ [] := by
    intro hnil
    have hscopes : a.scopes = [] := List.length_eq_zero_iff.1 (by rw [← h.depth, hnil]; rfl)
    rw [hscopes] at hmem
    exact absurd hmem List.not_mem_nil
  have hheld := h.held 0 o "super" hget
  have hchain := h.chain
  generalize m.env = env at hchain hheld hplain
  cases hchain with
  | globals => exact absurd rfl hsites
  | scope he _ =>
    rw [Frames.getAt?_zero, (hplain _ _ rfl (hentered he)).2] at hheld
    cases hsuper : o "super" with
    | none => rfl
    | some defined =>
      cases defined with
      | false => exact absurd hsuper (h.settled o hmem "super")
      | true => exact absurd (hheld hsuper) Bool.false_ne_true

variable {f g : ForLoop} {next : Nat}

theorem getElem?_onRecord (hfresh : Fresh m.nextNode next g.nodes) {i : Nat} (hi : i < m.nextNode ∨ next ≤ i) :
    (g.onRecord ctx a next m).distances[i]? = m.distances[i]? := by
  refine getElem?_record_of_not_mem (fun hmem => ?_) _
  have hnode : i ∈ g.nodes := (g.ids_visits ..).mem_iff.1 hmem
  have hlow := hfresh.low_le i hnode
  have hhigh := hfresh.lt_high i hnode
  omega

/-- Nothing in the session refers to the statement, so to have it on record changes nothing that can be told. -/
theorem told_onRecord (h : Stands log st m ctx sites a) (hn : m.nextNode ≤ next)
    (hfresh : Fresh m.nextNode next g.nodes) {host : Host} (hb : host.Blind) (n : Nat) :
    told (Lox.execute host n st (g.onRecord ctx a next m)) = told (Lox.execute host n st m) := by
  have hmatched : m.Matched (.kept m.nextNode next hn) (g.onRecord ctx a next m) := by
    refine h.numbered.matched hn (fun i hi => getElem?_onRecord hfresh (.inl hi)) fun i hi => ?_
    exact (getElem?_onRecord hfresh (.inr hi)).trans (h.numbered.fresh (Nat.le_trans hn hi))
  have hnode : ∀ i ∈ st.nodes, (Pairing.kept m.nextNode next hn).matching.node i i := by
    intro i hi
    obtain ⟨v, hv, rfl⟩ := List.mem_map.1 ((st.ids_visits ctx sites a).mem_iff.2 hi)
    exact .inl ⟨rfl, (h.recorded v hv).1⟩
  exact ((runsAlike hb _ n).execute (st.matched_self (fun _ => rfl) h.wellFormed hnode) _ _ hmatched).told rfl

theorem twin (h : Stands log f.desugared m ctx sites a) (hf : f.Proper) (ha : Unparented (outlines a.scopes))
    (hg : f.Copy g) (hn : m.nextNode ≤ next) (hfresh : Fresh m.nextNode next g.nodes) :
    f.Twin ⟨(g.onRecord ctx a next m).distances, next⟩ g := by
  obtain ⟨outer, inner, hv⟩ := f.visits_desugared ctx a sites
  have hloop : Recorded ⟨(g.onRecord ctx a next m).distances, next⟩
      (f.visits ctx (f.opened a) f.entered outer inner) := by
    intro v hmem
    rw [← hv] at hmem
    obtain ⟨hlt, hrecorded⟩ := h.recorded v hmem
    exact ⟨Nat.lt_of_lt_of_le hlt hn, (getElem?_onRecord hfresh (.inl hlt)).trans hrecorded⟩
  have hstatement : Recorded ⟨(g.onRecord ctx a next m).distances, next⟩ (g.visits ctx a.openScope id [] []) :=
    recorded_of_resolved (g.ids_visits ..) hfresh.nodup
      (fun i hi => ⟨h.numbered.fresh (hfresh.low_le i hi), hfresh.lt_high i hi⟩) fun _ _ => rfl
  exact hg.twin hf ha hloop hstatement

end Trace.Stands

/-- Whenever a session comes to the loop of a `for` statement, the loop stands there as the analysis has found it. Put
the statement on record beside it: the loop still does the same, and it ends as the statement does. -/
theorem Trace.session_loop_endsLike (host : Host) (output diagnostics : Sink) {lines : List Session.Line}
    (hh : ∀ line ∈ lines, line.host.Honest) {f : ForLoop} (hd : f.body.isDeclaration = false) {m : Machine}
    (hm : .began f.desugared m ∈ (session lines (.start host output diagnostics) []).2) :
    ∃ ctx sites a, Stands (session lines (.start host output diagnostics) []).2 f.desugared m ctx sites a ∧
      ∀ g next, f.Copy g → m.nextNode ≤ next → Fresh m.nextNode next g.nodes →
      ∀ host, host.Impartial → host.Blind → ∀ n,
        told (Lox.execute host n f.desugared (g.onRecord ctx a next m)) = told (Lox.execute host n f.desugared m) ∧
        (shown (Lox.execute host n f.desugared (g.onRecord ctx a next m)) ≠ none →
          EndsLike host m.frames.size (Lox.execute host n f.desugared (g.onRecord ctx a next m))
            (g.run host n (g.onRecord ctx a next m))) ∧
        (shown (g.run host n (g.onRecord ctx a next m)) ≠ none →
          EndsLike host m.frames.size (Lox.execute host (n + 8) f.desugared (g.onRecord ctx a next m))
            (g.run host n (g.onRecord ctx a next m))) := by
  obtain ⟨m₁, hgood⟩ := good_session (s := .start host output diagnostics) hh (good_start host output)
  obtain ⟨m₂, horderly⟩ := orderly_session (s := .start host output diagnostics) hh (orderly_start host output)
  obtain ⟨m₃, hlineal⟩ := lineal_session (s := .start host output diagnostics) hh (lineal_start host output)
  obtain ⟨ctx, sites, a, hst⟩ := hgood.began hm
  have hf : f.Proper := ForLoop.proper_of_desugared hst.wellFormed (horderly.began hm) hd
  have ha : Unparented (outlines a.scopes) :=
    hst.unparented (fun he => Nat.ne_of_gt (hgood.entered he).1) (hlineal.began hm)
  refine ⟨ctx, sites, a, hst, fun g next hg hn hfresh host hi hb n => ⟨hst.told_onRecord hn hfresh hb n, ?_⟩⟩
  exact (hst.twin hf ha hg hn hfresh).execute_endsLike (ForLoop.framed_onRecord hst.framed g ctx a next) hi n

-- the loop with the scope of its variable, the loop alone, and the one turn with its increment
example : ((Trace.session [⟨{}, 40, "for (var i = true; i; i = nil) print i;"⟩] (.start {} {} {}) []).2.filterMap fun
    | .began st m => some (st.nodes, m.env.length)
    | _ => none) = [([3, 2], 2), ([0, 3, 2], 2), ([0, 3, 2], 1)] := by
  cbv

end Lox
