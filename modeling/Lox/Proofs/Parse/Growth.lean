import Lox.Proofs.Endings
import Lox.Proofs.Parse.Related

/-!
# What reading does to the state

Every rule of the parser, whether it succeeds or not, only goes forward in the tokens, adds to the
errors and hands out identities from the next unused one on.
-/

namespace Lox
namespace Parse
open Ending

/-- What reading can do to the state: hand out identities, record faults, go forward. -/
structure Later (s s' : State) : Prop where
  nextId : s.nextId ≤ s'.nextId
  errors : s.errors <+: s'.errors
  rest : s'.rest <:+ s.rest
  eof : s'.eof = s.eof

theorem Later.refl (s : State) : Later s s :=
  ⟨Nat.le_refl _, List.prefix_refl _, List.suffix_refl _, rfl⟩

theorem Later.trans {s t u : State} (h : Later s t) (k : Later t u) : Later s u :=
  ⟨Nat.le_trans h.nextId k.nextId, h.errors.trans k.errors, k.rest.trans h.rest, k.eof.trans h.eof⟩

variable {α β : Type}

def Grows (p : Parse α) : Prop := ∀ s, Later s (state (p s))

namespace Grows

theorem of_state {p : Parse α} (h : ∀ s, state (p s) = s) : Grows p := fun s => (h s).symm ▸ .refl s

theorem bind {p : Parse α} {f : α → Parse β} (hp : Grows p) (hf : ∀ a, Grows (f a)) :
    Grows (p >>= f) := by
  intro s
  have h := hp s
  cases hs : p s with
  | ok a s₁ =>
    rw [bind_ok hs]
    rw [hs] at h
    exact h.trans (hf a s₁)
  | error e s₁ =>
    rw [bind_error hs]
    rwa [hs] at h

theorem pure (a : α) : Grows (Pure.pure a : Parse α) := of_state fun _ => rfl

theorem throw (h : Halt) : Grows (MonadExcept.throw h : Parse α) := of_state fun _ => rfl

theorem peek : Grows peek := of_state fun _ => rfl

theorem sees (k : Kind) : Grows (sees k) := by
  intro s
  cases s with
  | mk rest => cases rest <;> exact .refl _

theorem atEnd : Grows atEnd := of_state fun _ => rfl

theorem reject (fault : SyntaxFault) : Grows (reject fault : Parse α) := of_state fun _ => rfl

theorem report (t : Token) (fault : SyntaxFault) : Grows (report t fault) := fun _ =>
  ⟨Nat.le_refl _, List.prefix_append _ _, List.suffix_refl _, rfl⟩

/-- A report stays in the errors whatever is read after it. -/
theorem length_lt_of_report {p : Parse α} (hp : Grows p) {fault : SyntaxFault} {s s' : State}
    {a : α} (h : (do Parse.report (← Parse.peek) fault; p) s = .ok a s') :
    s.errors.length < s'.errors.length := by
  have hl := hp { s with errors := s.errors ++ [.syntacticAt (s.rest.headD s.eof) fault] }
  rw [show p _ = .ok a s' from h] at hl
  have hle := hl.errors.length_le
  rw [List.length_append, List.length_singleton] at hle
  exact Nat.lt_of_succ_le hle

theorem readIf (p : Kind → Bool) : Grows (readIf p) := by
  intro s
  rw [readIf_apply]
  split
  · exact .refl s
  · next t rest hs =>
    split
    · exact ⟨Nat.le_refl _, List.prefix_refl _, hs ▸ List.suffix_cons t rest, rfl⟩
    · exact .refl s

theorem accept (k : Kind) : Grows (accept k) := readIf _

theorem skip : Grows skip := fun _ =>
  ⟨Nat.le_refl _, List.prefix_refl _, List.tail_suffix _, rfl⟩

theorem expect (k : Kind) (what : Expected) : Grows (expect k what) := by
  refine bind (accept k) fun o => ?_
  split
  · exact pure _
  · exact reject _

theorem freshId : Grows freshId := fun _ =>
  ⟨Nat.le_succ _, List.prefix_refl _, List.suffix_refl _, rfl⟩

theorem resume_suffix (last : Token) (ts : List Token) : resume last ts <:+ ts := by
  induction ts generalizing last with
  | nil => exact List.suffix_refl _
  | cons t rest ih =>
    unfold resume
    split
    · exact List.suffix_refl _
    · exact (ih t).trans (List.suffix_cons t rest)

theorem skipFault_suffix (ts : List Token) : skipFault ts <:+ ts := by
  cases ts with
  | nil => exact List.suffix_refl _
  | cons t rest => exact (resume_suffix t rest).trans (List.suffix_cons t rest)

theorem recovering {p : Parse α} (hp : Grows p) : Grows (recovering p) := by
  intro s
  have h := hp s
  rw [recovering_apply]
  cases hs : p s with
  | ok a s₁ => rwa [hs] at h
  | error e s₁ =>
    rw [hs] at h
    cases e with
    | reject e =>
      exact ⟨h.nextId, h.errors.trans (List.prefix_append _ _),
        (skipFault_suffix _).trans h.rest, h.eof⟩
    | exhausted => exact h

theorem assignTo (target : Expr) (equals : Token) (value : Expr) :
    Grows (assignTo target equals value) := by
  unfold Parse.assignTo
  split
  · exact bind freshId fun _ => pure _
  · exact pure _
  · exact bind (report _ _) fun _ => pure _

end Grows

/-! ## The rules -/

/-- A result of a rule that only goes forward has a partner. Otherwise the second reading does not count. -/
theorem grows_relates :
    Relates .same fun A p (_ : Parse _) => Grows p ∧ ∀ s a s', p s = .ok a s' → ∃ b, A a b where
  pure h := by
    refine ⟨.pure _, fun s a s' ha => ?_⟩
    cases ha
    exact ⟨_, h⟩
  bind hp hf := by
    obtain ⟨hgrows, hpartner⟩ := hp
    refine ⟨fun s => ?_, fun s c s' hc => ?_⟩
    · have hlater := hgrows s
      cases ha : (_ : Parse _) s with
      | ok a s₁ =>
        obtain ⟨b, hab⟩ := hpartner s a s₁ ha
        rw [bind_ok ha]
        rw [ha] at hlater
        exact hlater.trans ((hf a b hab).1 s₁)
      | error e s₁ =>
        rw [bind_error ha]
        rwa [ha] at hlater
    · obtain ⟨a, s₁, ha, hc⟩ := bind_eq_ok.1 hc
      obtain ⟨b, hab⟩ := hpartner s a s₁ ha
      exact (hf a b hab).2 s₁ c s' hc
  peek := ⟨.peek, fun _ t _ _ => ⟨t, rfl⟩⟩
  atEnd := ⟨.atEnd, fun _ b _ _ => ⟨b, rfl⟩⟩
  sees k := ⟨.sees k, fun _ b _ _ => ⟨b, rfl⟩⟩
  readIf p := by
    refine ⟨.readIf p, fun _ o _ _ => ⟨o, ?_⟩⟩
    cases o with
    | none => exact .none
    | some t => exact .some rfl
  skip := ⟨.skip, fun _ u _ _ => ⟨u, trivial⟩⟩
  reject _ := ⟨.reject _, fun _ _ _ h => nomatch h⟩
  report _ _ := ⟨.report _ _, fun _ u _ _ => ⟨u, trivial⟩⟩
  freshId := ⟨.freshId, fun _ i _ _ => ⟨i, rfl⟩⟩
  assignTo _ _ _ := ⟨.assignTo _ _ _, fun _ e _ _ => ⟨e, rfl⟩⟩
  recovering hp := by
    refine ⟨.recovering hp.1, fun s o s' ho => ?_⟩
    rw [recovering_apply] at ho
    split at ho
    case h_1 a s₁ ha =>
      cases ho
      obtain ⟨b, hab⟩ := hp.2 s a _ ha
      exact ⟨some b, .some hab⟩
    case h_2 =>
      cases ho
      exact ⟨none, .none⟩
    case h_3 => cases ho

theorem Goal.grows (n : Nat) (goal : Goal) : Grows (goal.read n : Parse goal.Tree) := by
  have hrules := grows_relates.rules_same (fun _ => ⟨.throw _, fun _ _ _ h => nomatch h⟩) n
  exact (hrules.goal grows_relates goal).1

/-! ## Parts of rules -/

namespace Grows

variable {n : Nat}

/-- What `arguments` does once it has counted. -/
theorem arguments_tail (count : Nat) : Grows (do
    let first ← Parse.expression n
    match ← Parse.accept (.symbol .comma) with
    | some _ => return first :: (← Parse.arguments n (count + 1))
    | none => return [first]) := by
  refine .bind (Goal.grows n .expression) fun first => .bind (.accept _) fun o => ?_
  cases o with
  | none => exact .pure _
  | some comma => exact .bind (Goal.grows n (.arguments _)) fun _ => .pure _

/-- What `parameters` does once it has counted. -/
theorem parameters_tail (count : Nat) : Grows (do
    let first ← Parse.expect .identifier .parameterName
    match ← Parse.accept (.symbol .comma) with
    | some _ => return first :: (← Parse.parameters n (count + 1))
    | none => return [first]) := by
  refine .bind (.expect _ _) fun first => .bind (.accept _) fun o => ?_
  cases o with
  | none => exact .pure _
  | some comma => exact .bind (Goal.grows n (.parameters _)) fun _ => .pure _

/-- A declaration before recovery. -/
theorem declaration_body : Grows (do
    match ← Parse.accept (.keyword .classKw) with
    | some _ => Parse.classDeclaration n
    | none =>
      match ← Parse.accept (.keyword .funKw) with
      | some _ => return .function (← Parse.routine n .function)
      | none =>
        match ← Parse.accept (.keyword .varKw) with
        | some _ => Parse.varDeclaration n
        | none => Parse.statement n) := by
  refine .bind (.accept _) fun o => ?_
  cases o with
  | some kw => exact Goal.grows n .classDeclaration
  | none =>
    refine .bind (.accept _) fun o => ?_
    cases o with
    | some kw => exact .bind (Goal.grows n (.routine _)) fun _ => .pure _
    | none =>
      refine .bind (.accept _) fun o => ?_
      cases o with
      | some kw => exact Goal.grows n .varDeclaration
      | none => exact Goal.grows n .statement

/-- The braces of a class and the methods between them. -/
theorem class_body {name : Token} {superclass : Option Expr} : Grows (do
    let _ ← Parse.expect (.symbol .leftBrace) .classBody
    let methods ← Parse.methods n
    let _ ← Parse.expect (.symbol .rightBrace) .classEnd
    return Stmt.classDecl name superclass methods) :=
  .bind (.expect _ _) fun _ => .bind (Goal.grows n .methods) fun _ => .bind (.expect _ _) fun _ => .pure _

/-- The rest of a routine after its parameters. -/
theorem routine_body {kind : RoutineKind} {name : Token} {params : List Token} : Grows (do
    let _ ← Parse.expect (.symbol .rightParen) .parameterListEnd
    let _ ← Parse.expect (.symbol .leftBrace) (.routineBody kind)
    return (⟨name, params, ← Parse.block n⟩ : Routine)) :=
  .bind (.expect _ _) fun _ => .bind (.expect _ _) fun _ => .bind (Goal.grows n .block) fun _ => .pure _

/-- The rest of a `for` statement after its first clause. -/
theorem for_clauses {init : Option Stmt} : Grows (do
    let cond ← Parse.expressionUnless n (.symbol .semicolon)
    Parse.semicolon .loopConditionEnd
    let increment ← Parse.expressionUnless n (.symbol .rightParen)
    let _ ← Parse.expect (.symbol .rightParen) .forClausesEnd
    return forLoop init cond increment (← Parse.statement n)) :=
  .bind (Goal.grows n (.expressionUnless _)) fun _ => .bind (grows_relates.semicolon _).1 fun _ =>
    .bind (Goal.grows n (.expressionUnless _)) fun _ => .bind (.expect _ _) fun _ =>
    .bind (Goal.grows n .statement) fun _ => .pure _

end Grows
end Parse
end Lox
