import Lox.Proofs.Match.Machines
import Lox.Proofs.Scope.Invariant

/-!
# A machine matches itself

A well-formed tree matches itself if its identities do. The functions that a machine holds come from programs
whose identities were handed out before. So it matches a machine that differs from it only in what it will hand
out next.
-/

namespace Lox

theorem Token.matched_refl (t : Token) : t.Matched (.anyNode Eq) t := ⟨rfl, rfl, rfl⟩

mutual

theorem Expr.matched_refl : (e : Expr) → e.Matched (.anyNode Eq) e
  | .literal v => .literal v
  | .group e => .group e.matched_refl
  | .unary op e => .unary op.matched_refl e.matched_refl
  | .binary l op r => .binary l.matched_refl op.matched_refl r.matched_refl
  | .logical l op r => .logical l.matched_refl op.matched_refl r.matched_refl
  | .var _ name => .var trivial name.matched_refl
  | .assign _ name e => .assign trivial name.matched_refl e.matched_refl
  | .call callee paren args => .call callee.matched_refl paren.matched_refl (Expr.matchedAll_refl args)
  | .get object name => .get object.matched_refl name.matched_refl
  | .set object name e => .set object.matched_refl name.matched_refl e.matched_refl
  | .thisRef _ keyword => .thisRef trivial keyword.matched_refl
  | .superRef _ keyword method => .superRef trivial keyword.matched_refl method.matched_refl

theorem Expr.matchedAll_refl : (es : List Expr) → Expr.MatchedAll (.anyNode Eq) es es
  | [] => .nil
  | e :: rest => .cons e.matched_refl (Expr.matchedAll_refl rest)

end

theorem Expr.matchedOption_refl : (e : Option Expr) → Option.Rel (Expr.Matched (.anyNode Eq)) e e
  | none => .none
  | some e => .some e.matched_refl

mutual

/-- A superclass has to be a name. -/
theorem Stmt.matched_refl : (s : Stmt) → s.WellFormed → s.Matched (.anyNode Eq) s
  | .expr e, _ => .expr e.matched_refl
  | .print e, _ => .print e.matched_refl
  | .varDecl name init, _ => .varDecl name.matched_refl (Expr.matchedOption_refl init)
  | .block body, hw => .block (Stmt.matchedAll_refl body hw)
  | .branch cond yes none, hw => .branch cond.matched_refl (yes.matched_refl hw.2.1)
  | .branch cond yes (some no), hw =>
    .branchElse cond.matched_refl (yes.matched_refl hw.2.1.1) (no.matched_refl hw.2.2.1)
  | .loop cond body, hw => .loop cond.matched_refl (body.matched_refl hw.2.1)
  | .breakLoop keyword, _ => .breakLoop keyword.matched_refl
  | .function decl, hw => .function (decl.matched_refl hw)
  | .returnWith keyword value, _ => .returnWith keyword.matched_refl (Expr.matchedOption_refl value)
  | .classDecl name none methods, hw => .classDecl name.matched_refl (Routine.matchedAll_refl methods hw.2)
  | .classDecl name (some _) methods, ⟨⟨_, superName, rfl⟩, hw⟩ =>
    .subclassDecl name.matched_refl trivial superName.matched_refl (Routine.matchedAll_refl methods hw)
  | .execute keyword path, _ => .execute keyword.matched_refl path.matched_refl

theorem Stmt.matchedAll_refl : (ss : List Stmt) → Stmt.AllWellFormed ss → Stmt.MatchedAll (.anyNode Eq) ss ss
  | [], _ => .nil
  | s :: rest, hw => .cons (s.matched_refl hw.1) (Stmt.matchedAll_refl rest hw.2)

theorem Routine.matched_refl : (r : Routine) → r.WellFormed → r.Matched (.anyNode Eq) r
  | ⟨name, _, body⟩, hw =>
    .mk name.matched_refl (List.forall₂_same.2 fun t _ => t.matched_refl) (Stmt.matchedAll_refl body hw)

theorem Routine.matchedAll_refl :
    (rs : List Routine) → Routine.AllWellFormed rs → Routine.MatchedAll (.anyNode Eq) rs rs
  | [], _ => .nil
  | r :: rest, hw => .cons (r.matched_refl hw.1) (Routine.matchedAll_refl rest hw.2)

end

section

variable {ρ : Matching} (hl : ∀ k, ρ.line k k)
include hl

theorem Stmt.matched_self (s : Stmt) (hw : s.WellFormed) (hn : ∀ i ∈ s.nodes, ρ.node i i) : s.Matched ρ s :=
  (s.matched_refl hw).retarget (fun k _ hkl => hkl ▸ hl k) (List.forall₂_same.2 hn)

theorem Stmt.matchedAll_self (ss : List Stmt) (hw : Stmt.AllWellFormed ss) (hn : ∀ i ∈ Stmt.nodesAll ss, ρ.node i i) :
    Stmt.MatchedAll ρ ss ss :=
  (Stmt.matchedAll_refl ss hw).retarget (fun k _ hkl => hkl ▸ hl k) (List.forall₂_same.2 hn)

theorem Routine.matched_self (r : Routine) (hw : r.WellFormed) (hn : ∀ i ∈ r.nodes, ρ.node i i) : r.Matched ρ r :=
  (r.matched_refl hw).retarget (fun k _ hkl => hkl ▸ hl k) (List.forall₂_same.2 hn)

end

/-! ## Machines -/

theorem Value.Numbered.matched_self {ρ : Matching} {next : Nat} {v : Value} (h : v.Numbered next)
    (hl : ∀ k, ρ.line k k) (hn : ∀ i < next, ρ.node i i) : v.Matched ρ v := by
  have hroutine : ∀ {r : Routine}, r.Numbered next → r.Matched ρ r :=
    fun {r} hr => r.matched_self hl hr.1 fun i hi => hn i (hr.2 i hi)
  have hclass : ∀ c : Class, (∀ name f, c.findMethod name = some f → f.decl.Numbered next) → c.Matched ρ c := by
    refine fun c hc => ⟨rfl, rfl, fun name => ?_⟩
    cases hf : c.findMethod name with
    | none => exact .none
    | some f => exact .some ⟨hroutine (hc name f hf), rfl, rfl⟩
  cases v with
  | nil => exact .nil
  | bool b => exact .bool b
  | number x => exact .number x
  | string t => exact .string t
  | native f => exact .native f
  | function id f => exact .function id ⟨hroutine h, rfl, rfl⟩
  | classDef c => exact .classDef (hclass c h)
  | object id c => exact .object id (hclass c h)

/-- Identities that were handed out before go with themselves. -/
def Pairing.kept (low low' : Nat) (h : low ≤ low') : Pairing where
  base i j := i = j ∧ i < low
  low := low
  low' := low'
  line := Eq
  error := Eq
  older := []
  older' := []
  base_lt := by
    rintro i _ ⟨rfl, hi⟩
    exact ⟨hi, Nat.lt_of_lt_of_le hi h⟩
  base_unique := by
    rintro i _ i' _ ⟨rfl, -⟩ ⟨rfl, -⟩
    exact Iff.rfl
  line_refl _ := rfl
  error_refl _ := rfl
  error_runtime _ h := h ▸ rfl

/-- A machine matches one that has handed out more identities, whatever is on record for those. -/
theorem Machine.Numbered.matched {m : Machine} (h : m.Numbered) {next : Nat} {distances : Distances}
    (hn : m.nextNode ≤ next)
    (hd : ∀ i < m.nextNode, distances[i]? = m.distances[i]?)
    (hf : ∀ i, next ≤ i → distances[i]? = none) :
    m.Matched (.kept m.nextNode next hn) { m with nextNode := next, distances := distances } := by
  have hnode : ∀ i < m.nextNode, (Pairing.kept m.nextNode next hn).matching.node i i :=
    fun i hi => .inl ⟨rfl, hi⟩
  refine
    { size := rfl, objects := rfl, nextRef := rfl, env := rfl, ticks := rfl, requested := rfl
      frames := fun i name => ?_
      fields := fun id name => ?_
      nodes := ⟨0, rfl, rfl⟩
      distances := ?_
      fresh := fun i hi => h.fresh hi
      fresh' := hf
      output := ⟨rfl, fun _ => rfl, fun _ => rfl⟩
      warnings := ⟨m.warnings, rfl, rfl⟩ }
  · dsimp only
    cases hr : m.frames.read i name with
    | none => exact .none
    | some v => exact .some ((h.frames hr).matched_self (fun _ => rfl) hnode)
  · show Option.Rel _ ((m.fields id).get? name) ((m.fields id).get? name)
    cases hr : (m.fields id).get? name with
    | none => exact .none
    | some v => exact .some ((h.fields hr).matched_self (fun _ => rfl) hnode)
  · rintro i j (⟨rfl, hi⟩ | ⟨k, rfl, rfl⟩)
    · exact hd i hi
    · have hl := hf (next + k) (Nat.le_add_right _ _)
      have hr : m.distances[m.nextNode + k]? = none := h.fresh (Nat.le_add_right _ _)
      exact hl.trans hr.symm

end Lox
