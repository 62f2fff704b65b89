import Lox.Proofs.Endings
import Lox.Proofs.Parse.Related

/-!
# What reading does not depend on

The bound on the depth of the parser says when to give up and nothing else, and no rule looks at the errors
that were recorded before it. So a rule that ends by itself ends in the same way with a greater bound and
behind any older errors, which stay in front of its own.
-/

namespace Lox
namespace Parse
open Ending

/-- The same state, with older errors in front. -/
def State.behind (older : List Error) (s : State) : State := { s with errors := older ++ s.errors }

@[simp] theorem State.rest_behind (older : List Error) (s : State) : (s.behind older).rest = s.rest := rfl

variable {α β γ δ : Type}

/-- The second ending is the first one behind older errors, unless that was cut off. -/
def Follows (older : List Error) (A : α → β → Prop) (r : EStateM.Result Halt State α)
    (r' : EStateM.Result Halt State β) : Prop :=
  match r with
  | .ok a s => ∃ b, r' = .ok b (s.behind older) ∧ A a b
  | .error (.reject e) s => r' = .error (.reject e) (s.behind older)
  | .error .exhausted _ => True

/-- Unless `p` is cut off, `q` does the same behind any older errors. -/
def Extends (A : α → β → Prop) (p : Parse α) (q : Parse β) : Prop :=
  ∀ older s, Follows older A (p s) (q (s.behind older))

namespace Extends

/-- A step that does not look at the errors. -/
theorem of_eq {p : Parse α} {A : α → α → Prop} (hA : ∀ a, A a a)
    (h : ∀ older s, Follows older Eq (p s) (p (s.behind older))) : Extends A p p := by
  intro older s
  have hs := h older s
  unfold Follows at hs ⊢
  cases hp : p s with
  | ok a s₁ =>
    rw [hp] at hs
    obtain ⟨b, hb, rfl⟩ := hs
    exact ⟨a, hb, hA a⟩
  | error e s₁ =>
    rw [hp] at hs
    cases e with
    | reject e => exact hs
    | exhausted => trivial

theorem bind {A : α → β → Prop} {B : γ → δ → Prop} {p : Parse α} {q : Parse β} {f : α → Parse γ} {g : β → Parse δ}
    (hp : Extends A p q) (hf : ∀ a b, A a b → Extends B (f a) (g b)) : Extends B (p >>= f) (q >>= g) := by
  intro older s
  have h := hp older s
  cases hs : p s with
  | ok a s₁ =>
    rw [hs] at h
    obtain ⟨b, hb, hab⟩ := h
    rw [bind_ok hs, bind_ok hb]
    exact hf a b hab older s₁
  | error e s₁ =>
    rw [hs] at h
    rw [bind_error hs]
    cases e with
    | reject e => exact bind_error h
    | exhausted => trivial

theorem readIf (p : Kind → Bool) (older : List Error) (s : State) :
    Follows older Eq (readIf p s) (readIf p (s.behind older)) := by
  rw [readIf_apply, readIf_apply, State.rest_behind]
  cases s.rest with
  | nil => exact ⟨_, rfl, rfl⟩
  | cons t rest =>
    dsimp only
    split <;> exact ⟨_, rfl, rfl⟩

theorem report (t : Token) (fault : SyntaxFault) (older : List Error) (s : State) :
    Follows older Eq (report t fault s) (report t fault (s.behind older)) := by
  refine ⟨(), ?_, rfl⟩
  show EStateM.Result.ok () _ = .ok () _
  simp only [State.behind, List.append_assoc]

theorem recovering {A : α → β → Prop} {p : Parse α} {q : Parse β} (hp : Extends A p q) :
    Extends (Option.Rel A) (recovering p) (recovering q) := by
  intro older s
  have h := hp older s
  rw [recovering_apply, recovering_apply]
  cases hs : p s with
  | ok a s₁ =>
    rw [hs] at h
    obtain ⟨b, hb, hab⟩ := h
    rw [hb]
    exact ⟨some b, rfl, .some hab⟩
  | error e s₁ =>
    rw [hs] at h
    cases e with
    | reject e =>
      rw [show q (s.behind older) = _ from h]
      refine ⟨none, ?_, .none⟩
      simp only [State.behind, List.append_assoc]
    | exhausted => trivial

theorem relates : Relates .same @Extends where
  pure h _ _ := ⟨_, rfl, h⟩
  bind := bind
  peek _ _ := ⟨_, rfl, rfl⟩
  atEnd _ _ := ⟨_, rfl, rfl⟩
  sees k older s := by
    cases s with
    | mk rest => cases rest <;> exact ⟨_, rfl, rfl⟩
  readIf p := by
    refine of_eq (fun o => ?_) (readIf p)
    cases o with
    | none => exact .none
    | some t => exact .some rfl
  skip _ _ := ⟨_, rfl, trivial⟩
  reject _ _ _ := rfl
  report ht _ := by
    cases ht
    exact of_eq (fun _ => trivial) (report _ _)
  freshId _ _ := ⟨_, rfl, rfl⟩
  assignTo ht he hv := by
    cases ht
    cases he
    cases hv
    unfold assignTo
    split
    · exact fun _ _ => ⟨_, rfl, rfl⟩
    · exact fun _ _ => ⟨_, rfl, rfl⟩
    · exact (of_eq (A := Eq) (fun _ => rfl) (report _ _)).bind fun _ _ _ _ _ => ⟨_, rfl, rfl⟩
  recovering := recovering

/-- A result is the same with the greater bound. -/
theorem eq_ok_behind {p q : Parse α} (h : Extends Eq p q) {s s' : State} {a : α} (hp : p s = .ok a s')
    (older : List Error) : q (s.behind older) = .ok a (s'.behind older) := by
  have hs := h older s
  rw [hp] at hs
  obtain ⟨b, hb, rfl⟩ := hs
  exact hb

theorem eq_ok {p q : Parse α} (h : Extends Eq p q) {s s' : State} {a : α} (hp : p s = .ok a s') : q s = .ok a s' :=
  h.eq_ok_behind hp []

end Extends

theorem Goal.extend {n n' : Nat} (h : n ≤ n') (goal : Goal) :
    Extends Eq (goal.read n : Parse goal.Tree) (goal.read n') :=
  (Extends.relates.rules (fun _ _ _ _ => trivial) h).goal Extends.relates goal

end Parse
end Lox
