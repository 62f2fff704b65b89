import Lox.Proofs.Match.Trees
import Lox.Proofs.Parse.Related
import Lox.Proofs.Parse.Steps

/-!
# Reading matched tokens

The parser looks at the kinds of tokens and hands out identities one after the other. So from matched
tokens, and from identities that match from the first on, it reads matched trees, or finds the
same faults at matched places.
-/

namespace Lox
namespace Parse
open Ending

/-- Two readings go abreast: the next identities match whenever the last did, and a fault of the
grammar at matched tokens is a like error. -/
structure Abreast (ρ : Matching) (E : Error → Error → Prop) : Prop where
  node_succ {i j : Nat} : ρ.node i j → ρ.node (i + 1) (j + 1)
  error {t t' : Token} {fault : SyntaxFault} : t.Matched ρ t' → (∀ wording, fault ≠ .custom wording) →
    E (.syntacticAt t fault) (.syntacticAt t' fault)

structure State.Matched (ρ : Matching) (E : Error → Error → Prop) (s s' : State) : Prop where
  rest : List.Forall₂ (Token.Matched ρ) s.rest s'.rest
  eof : s.eof.Matched ρ s'.eof
  nextId : ρ.node s.nextId s'.nextId
  errors : List.Forall₂ E s.errors s'.errors

variable {α β : Type} {ρ : Matching} {E : Error → Error → Prop}

inductive Ended (ρ : Matching) (E : Error → Error → Prop) (A : α → β → Prop) :
    EStateM.Result Halt State α → EStateM.Result Halt State β → Prop
  | ok {a : α} {b : β} {s s' : State} : A a b → s.Matched ρ E s' → Ended ρ E A (.ok a s) (.ok b s')
  | reject {e e' : Error} {s s' : State} : E e e' → s.Matched ρ E s' →
      Ended ρ E A (.error (.reject e) s) (.error (.reject e') s')
  | exhausted {s s' : State} : s.Matched ρ E s' →
      Ended ρ E A (.error .exhausted s) (.error .exhausted s')

/-- From matched states, two rules end alike, with results that go together as `A` says. -/
def Alike (ρ : Matching) (E : Error → Error → Prop) (A : α → β → Prop) (p : Parse α) (q : Parse β) : Prop :=
  ∀ s s', s.Matched ρ E s' → Ended ρ E A (p s) (q s')

/-- Matched trees. -/
def Kinship.matched (ρ : Matching) : Kinship where
  token := Token.Matched ρ
  node := ρ.node
  expr := Expr.Matched ρ
  stmt := Stmt.Matched ρ
  routine := Routine.Matched ρ
  kind ht := ht.kind
  literal := .literal
  group := .group
  unary := .unary
  binary := .binary
  logical := .logical
  var := .var
  call he ht hs := .call he ht (.of_forall₂ hs)
  get := .get
  thisRef := .thisRef
  superRef := .superRef
  exprStmt := .expr
  print := .print
  varDecl := .varDecl
  block hs := .block (.of_forall₂ hs)
  branch := .branch
  branchElse := .branchElse
  loop := .loop
  breakLoop := .breakLoop
  function := .function
  returnWith := .returnWith
  classDecl ht hs := .classDecl ht (.of_forall₂ hs)
  subclassDecl ht hi hu hs := .subclassDecl ht hi hu (.of_forall₂ hs)
  execute := .execute
  declared ht hp hs := .mk ht hp (.of_forall₂ hs)

namespace Alike

variable {γ δ : Type} {A : α → β → Prop} {B : γ → δ → Prop}

theorem bind {p : Parse α} {q : Parse β} {f : α → Parse γ} {g : β → Parse δ} (hp : Alike ρ E A p q)
    (hf : ∀ a b, A a b → Alike ρ E B (f a) (g b)) : Alike ρ E B (p >>= f) (q >>= g) := by
  intro s s' hs
  have h := hp s s' hs
  show Ended ρ E B (EStateM.bind p f s) (EStateM.bind q g s')
  unfold EStateM.bind
  generalize p s = r at h ⊢
  generalize q s' = r' at h ⊢
  cases h with
  | ok ha hs₁ => exact hf _ _ ha _ _ hs₁
  | reject he hs₁ => exact .reject he hs₁
  | exhausted hs₁ => exact .exhausted hs₁

/-! ## Single tokens -/

theorem peek : Alike ρ E (Token.Matched ρ) peek peek := by
  intro s s' hs
  refine .ok ?_ hs
  have hr := hs.rest
  generalize s.rest = ts at hr
  generalize s'.rest = ts' at hr
  cases hr with
  | nil => exact hs.eof
  | cons ht _ => exact ht

theorem atEnd : Alike ρ E Eq atEnd atEnd := by
  intro s s' hs
  refine .ok ?_ hs
  have hr := hs.rest
  generalize s.rest = ts at hr
  generalize s'.rest = ts' at hr
  cases hr <;> rfl

theorem sees (k : Kind) : Alike ρ E Eq (sees k) (sees k) := by
  intro s s' hs
  rw [sees_apply, sees_apply]
  refine .ok ?_ hs
  have hr := hs.rest
  generalize s.rest = ts at hr
  generalize s'.rest = ts' at hr
  cases hr with
  | nil => rfl
  | cons ht _ => exact congrArg (·.alike k) ht.kind.symm

theorem readIf (p : Kind → Bool) : Alike ρ E (Option.Rel (Token.Matched ρ)) (readIf p) (readIf p) := by
  intro s s' hs
  have hr := hs.rest
  rw [readIf_apply, readIf_apply]
  cases hts : s.rest with
  | nil =>
    rw [hts] at hr
    rw [List.forall₂_nil_left_iff.1 hr]
    exact .ok .none hs
  | cons t ts =>
    rw [hts] at hr
    obtain ⟨t', ts', ht, hrest, hts'⟩ := List.forall₂_cons_left_iff.1 hr
    rw [hts']
    dsimp only
    rw [ht.kind]
    split
    · exact .ok (.some ht) ⟨hrest, hs.eof, hs.nextId, hs.errors⟩
    · exact .ok .none hs

theorem skip : Alike ρ E (fun _ _ => True) skip skip := by
  intro s s' hs
  refine .ok trivial ⟨?_, hs.eof, hs.nextId, hs.errors⟩
  have ht := List.forall₂_drop 1 hs.rest
  rwa [List.drop_one, List.drop_one] at ht

section

variable (ha : Abreast ρ E)
include ha

theorem report {t t' : Token} (ht : t.Matched ρ t') {fault : SyntaxFault}
    (hf : ∀ wording, fault ≠ .custom wording) :
    Alike ρ E (fun _ _ => True) (report t fault) (report t' fault) :=
  fun _ _ hs => .ok trivial
    ⟨hs.rest, hs.eof, hs.nextId, List.rel_append hs.errors (.cons (ha.error ht hf) .nil)⟩

theorem freshId : Alike ρ E ρ.node freshId freshId :=
  fun _ _ hs => .ok hs.nextId ⟨hs.rest, hs.eof, ha.node_succ hs.nextId, hs.errors⟩

/-- Whether a target can be assigned to shows in its form. -/
theorem assignTo {target target' value value' : Expr} {equals equals' : Token}
    (ht : target.Matched ρ target') (he : equals.Matched ρ equals') (hv : value.Matched ρ value') :
    Alike ρ E (Expr.Matched ρ) (assignTo target equals value) (assignTo target' equals' value') := by
  have hother : Alike ρ E (Expr.Matched ρ)
      (do Parse.report equals .invalidTarget; return target)
      (do Parse.report equals' .invalidTarget; return target') :=
    bind (report ha he nofun) fun _ _ _ _ _ hs => .ok ht hs
  cases ht with
  | var _ hname => exact bind (freshId ha) fun _ _ hi _ _ hs => .ok (.assign hi hname hv) hs
  | get hobject hname => exact fun _ _ hs => .ok (.set hobject hname hv) hs
  | _ => exact hother

end

/-- A fault is left behind in the same way wherever it was found. -/
theorem resume {last last' : Token} (hl : last.Matched ρ last') {ts ts' : List Token}
    (h : List.Forall₂ (Token.Matched ρ) ts ts') :
    List.Forall₂ (Token.Matched ρ) (resume last ts) (resume last' ts') := by
  induction h generalizing last last' with
  | nil => exact .nil
  | cons ht hrest ih =>
    unfold Parse.resume
    rw [hl.kind, ht.kind]
    split
    · exact .cons ht hrest
    · exact ih ht

theorem recovering {p : Parse α} {q : Parse β} (hp : Alike ρ E A p q) :
    Alike ρ E (Option.Rel A) (recovering p) (recovering q) := by
  intro s s' hs
  have h := hp s s' hs
  rw [recovering_apply, recovering_apply]
  generalize p s = r at h ⊢
  generalize q s' = r' at h ⊢
  cases h with
  | ok ha hs₁ => exact .ok (.some ha) hs₁
  | exhausted hs₁ => exact .exhausted hs₁
  | @reject _ _ s₁ s₁' he hs₁ =>
    refine .ok .none ⟨?_, hs₁.eof, hs₁.nextId, List.rel_append hs₁.errors (.cons he .nil)⟩
    have hr := hs₁.rest
    dsimp only
    generalize s₁.rest = ts at hr
    generalize s₁'.rest = ts' at hr
    cases hr with
    | nil => exact .nil
    | cons ht hrest => exact resume ht hrest

end Alike

theorem Alike.relates (ha : Abreast ρ E) : Relates (.matched ρ) (Alike ρ E) where
  pure h _ _ hs := .ok h hs
  bind := .bind
  peek := .peek
  atEnd := .atEnd
  sees := .sees
  readIf := .readIf
  skip := .skip
  reject _ := .bind .peek fun _ _ ht _ _ hs => .reject (ha.error ht nofun) hs
  report ht hf := .report ha ht hf
  freshId := .freshId ha
  assignTo ht he hv := .assignTo ha ht he hv
  recovering := .recovering

theorem Alike.program (ha : Abreast ρ E) (n : Nat) :
    Alike ρ E (List.Forall₂ (Stmt.Matched ρ)) (program n) (program n) :=
  ((Alike.relates ha).rules_same (fun _ _ _ hs => .exhausted hs) n).program

/-! ## Whole texts -/

theorem find?_isEof_matched {ts ts' : List Token} (h : List.Forall₂ (Token.Matched ρ) ts ts') :
    Option.Rel (Token.Matched ρ) (ts.find? isEof) (ts'.find? isEof) := by
  induction h with
  | nil => exact .none
  | @cons t t' ts ts' ht _ ih =>
    have hk : isEof t' = isEof t := congrArg (·.alike .eof) ht.kind
    rw [List.find?_cons, List.find?_cons, hk]
    cases isEof t with
    | true => exact .some ht
    | false => exact ih

theorem endOf_matched {ts ts' : List Token} (h : List.Forall₂ (Token.Matched ρ) ts ts')
    (he : ∃ t ∈ ts, isEof t = true) : (endOf ts).Matched ρ (endOf ts') := by
  have hf := find?_isEof_matched h
  obtain ⟨t, ht⟩ := Option.isSome_iff_exists.1 (List.find?_isSome.2 he)
  unfold endOf
  rw [ht] at hf ⊢
  generalize ts'.find? isEof = o' at hf
  cases hf with
  | some ht => exact ht

theorem start_matched {ts ts' : List Token} (h : List.Forall₂ (Token.Matched ρ) ts ts')
    (he : ∃ t ∈ ts, isEof t = true) {i j : Nat} (hi : ρ.node i j) :
    (start ts i).Matched ρ E (start ts' j) := by
  refine ⟨?_, endOf_matched h he, hi, .nil⟩
  show List.Forall₂ (Token.Matched ρ) (ts.takeWhile (!isEof ·)) (ts'.takeWhile (!isEof ·))
  clear he
  induction h with
  | nil => exact .nil
  | @cons t t' ts ts' ht hts ih =>
    have hk : isEof t' = isEof t := congrArg (·.alike .eof) ht.kind
    rw [List.takeWhile_cons, List.takeWhile_cons, hk]
    split
    · exact .cons ht ih
    · exact .nil

end Parse

/-- What two readings give: matched programs, or errors that go together. -/
inductive Stmt.ReadAlike (ρ : Matching) (E : Error → Error → Prop) :
    Except (List Error) (List Stmt) → Except (List Error) (List Stmt) → Prop
  | ok {program program' : List Stmt} : Stmt.MatchedAll ρ program program' →
      ReadAlike ρ E (.ok program) (.ok program')
  | error {es es' : List Error} : List.Forall₂ E es es' → ReadAlike ρ E (.error es) (.error es')

theorem Stmt.parse_matched {ρ : Matching} {E : Error → Error → Prop} (ha : Parse.Abreast ρ E)
    {ts ts' : List Token} (h : List.Forall₂ (Token.Matched ρ) ts ts')
    (he : ∃ t ∈ ts, Parse.isEof t = true) {i j : Nat} (hi : ρ.node i j) :
    Stmt.ReadAlike ρ E (Stmt.parse ts i).1 (Stmt.parse ts' j).1 ∧
      ρ.node (Stmt.parse ts i).2 (Stmt.parse ts' j).2 := by
  have hp := Parse.Alike.program ha (Parse.depth ts.length) _ _ (Parse.start_matched h he hi)
  unfold Stmt.parse
  rw [← h.length_eq]
  generalize Parse.program (Parse.depth ts.length) (Parse.start ts i) = r at hp ⊢
  generalize Parse.program (Parse.depth ts.length) (Parse.start ts' j) = r' at hp ⊢
  cases hp with
  | @ok program program' s s' hprogram hs =>
    refine ⟨?_, hs.nextId⟩
    have herrors := hs.errors
    dsimp only
    generalize s.errors = es at herrors
    generalize s'.errors = es' at herrors
    cases herrors with
    | nil => exact .ok (.of_forall₂ hprogram)
    | cons he hes => exact .error (.cons he hes)
  | reject _ hs => exact ⟨.error hs.errors, hs.nextId⟩
  | exhausted hs => exact ⟨.error hs.errors, hs.nextId⟩

end Lox
