import Lox.Program.Parser
import Lox.Proofs.Parse.Progress

/-!
# Reading by places

`Parser` goes through a vector of all the tokens by a place in it, where `Parse.State` has the tokens that are left
before the first `eof`. A rule does the same with the one as with the other: from a place and what is left behind it,
it comes to the same result, to a place and what is left behind that, or ends at the same fault. In particular it
never looks for a token at a place where there is none.
-/

namespace Lox
namespace Parser
open Ending
open Parse (State Goal Relates isEof ended firstEof nextIs)

/-- What is left before the first `eof` begins at the place of the parser. -/
structure Tracks (tokens : List Token) (p : Parser) (s : State) : Prop where
  vector : p.tokens = (ended tokens).toArray
  place : s.At tokens p.current
  nextId : s.nextId = p.nextId
  errors : s.errors = p.errors

variable {tokens : List Token} {p : Parser} {s : State}

/-! ## Single steps -/

namespace Tracks

variable {t : Token} {rest : List Token} {k : Kind}

theorem getElem?_current (h : Tracks tokens p s) : p.tokens[p.current]? = some (s.rest.headD s.eof) := by
  rw [h.vector, List.getElem?_toArray]
  exact h.place.looks_at

theorem current_lt (h : Tracks tokens p s) : p.current < p.tokens.size :=
  (Array.getElem?_eq_some_iff.1 h.getElem?_current).1

/-- A place is all that a parser adds to what is left. -/
theorem unique {p' : Parser} (h : Tracks tokens p s) (h' : Tracks tokens p' s) : p = p' := by
  obtain ⟨vector, current, nextId, errors⟩ := p
  obtain ⟨vector', current', nextId', errors'⟩ := p'
  have hvector : vector = vector' := h.vector.trans h'.vector.symm
  have hcurrent : current = current' := h.place.unique h'.place
  have hnextId : nextId = nextId' := h.nextId.symm.trans h'.nextId
  have herrors : errors = errors' := h.errors.symm.trans h'.errors
  rw [hvector, hcurrent, hnextId, herrors]

theorem tokenAt_of_getElem? {i : Nat} (ht : p.tokens[i]? = some t) : tokenAt i p = .ok t p := by
  rw [tokenAt_apply, ht]
  rfl

theorem peek (h : Tracks tokens p s) : peek p = .ok (s.rest.headD s.eof) p :=
  tokenAt_of_getElem? h.getElem?_current

theorem atEnd (h : Tracks tokens p s) : atEnd p = .ok s.rest.isEmpty p := by
  rw [← h.place.isEof_headD]
  exact (bind_ok h.peek).trans rfl

/-- There is a token before any place, for the first counts as the one before itself. -/
theorem previous (h : Tracks tokens p s) : ∃ t, previous p = .ok t p := by
  have hlt : p.current - 1 < p.tokens.size := Nat.lt_of_le_of_lt (Nat.sub_le _ _) h.current_lt
  exact ⟨_, tokenAt_of_getElem? (Array.getElem?_eq_getElem hlt)⟩

theorem next (h : Tracks tokens p s) (hr : s.rest = t :: rest) :
    Tracks tokens { p with current := p.current + 1 } { s with rest := rest } where
  vector := h.vector
  place := h.place.next hr
  nextId := h.nextId
  errors := h.errors

theorem fails (h : Tracks tokens p s) (e : Error) :
    Tracks tokens { p with errors := p.errors ++ [e] } { s with errors := s.errors ++ [e] } where
  vector := h.vector
  place := ⟨h.place.le, h.place.rest, h.place.eof⟩
  nextId := h.nextId
  errors := congrArg (· ++ [e]) h.errors

/-- The token that has been read is the one before the place. -/
theorem previous_next (h : Tracks tokens p s) (hr : s.rest = t :: rest) :
    Parser.previous { p with current := p.current + 1 } = .ok t { p with current := p.current + 1 } := by
  have hget := h.getElem?_current
  rw [hr, List.headD_cons] at hget
  exact tokenAt_of_getElem? hget

theorem advance (h : Tracks tokens p s) (hr : s.rest = t :: rest) :
    advance p = .ok t { p with current := p.current + 1 } := by
  have hend : Parser.atEnd p = .ok false p := by rw [h.atEnd, hr]; rfl
  exact (bind_ok hend).trans (h.previous_next hr)

/-- At the end the place stays. -/
theorem advance_at_end (h : Tracks tokens p s) (hr : s.rest = []) : ∃ t, Parser.advance p = .ok t p := by
  have hend : Parser.atEnd p = .ok true p := by rw [h.atEnd, hr]; rfl
  obtain ⟨t, ht⟩ := h.previous
  exact ⟨t, (bind_ok hend).trans ht⟩

theorem check (h : Tracks tokens p s) (is : Kind → Bool) : check is p = .ok (nextIs is s.rest) p := by
  have hend := h.atEnd
  have hpeek := h.peek
  cases hr : s.rest with
  | nil =>
    rw [hr] at hend
    exact bind_ok hend
  | cons t rest =>
    rw [hr] at hend hpeek
    exact (bind_ok hend).trans (bind_ok hpeek)

theorem readIf (h : Tracks tokens p s) (hr : s.rest = t :: rest) {is : Kind → Bool} (hk : is t.kind = true) :
    Parse.readIf is p = .ok (some t) { p with current := p.current + 1 } := by
  have hcheck : Parser.check is p = .ok true p := by rw [h.check, hr, Parse.nextIs_cons, hk]
  exact (bind_ok hcheck).trans (bind_ok (h.advance hr))

theorem readIf_other (h : Tracks tokens p s) {is : Kind → Bool} (hk : nextIs is s.rest = false) :
    Parse.readIf is p = .ok none p := by
  have hcheck : Parser.check is p = .ok false p := by rw [h.check, hk]
  exact bind_ok hcheck

end Tracks

/-! ## Going on after a fault -/

/-- From behind the token `last`, the parser comes to where the tokens resume. -/
theorem synchronizeLoop_tracks {last : Token} {rounds : Nat} (h : Tracks tokens p s)
    (hlast : previous p = .ok last p) (hrounds : s.rest.length < rounds) :
    ∃ p', synchronizeLoop rounds p = .ok () p' ∧ Tracks tokens p' { s with rest := Parse.resume last s.rest } := by
  induction rounds generalizing p s last with
  | zero => omega
  | succ rounds ih =>
    have hend := h.atEnd
    have hpeek := h.peek
    cases hr : s.rest with
    | nil =>
      rw [hr] at hend
      refine ⟨p, bind_ok hend, ?_⟩
      rw [Parse.resume, ← hr]
      exact h
    | cons t rest =>
      rw [hr] at hend hpeek hrounds
      have hloop : synchronizeLoop (rounds + 1) p =
          if last.kind.alike (.symbol .semicolon) || Parse.startsStatement t.kind then .ok () p
          else synchronizeLoop rounds { p with current := p.current + 1 } := by
        refine (bind_ok hend).trans ((bind_ok hlast).trans ?_)
        cases last.kind.alike (.symbol .semicolon) with
        | true => rfl
        | false =>
          refine (bind_ok hpeek).trans ?_
          rw [List.headD_cons, Bool.false_or]
          cases Parse.startsStatement t.kind with
          | true => rfl
          | false => exact bind_ok (h.advance hr)
      rw [hloop, Parse.resume]
      split
      case isTrue =>
        refine ⟨p, rfl, ?_⟩
        rw [← hr]
        exact h
      case isFalse => exact ih (h.next hr) (h.previous_next hr) (by simpa using hrounds)

theorem synchronize_tracks (h : Tracks tokens p s) :
    ∃ p', synchronize p = .ok () p' ∧ Tracks tokens p' { s with rest := Parse.skipFault s.rest } := by
  have hsize : s.rest.length < p.tokens.size := by
    have hlen := h.place.length_rest
    have hlt := Parse.firstEof_lt tokens
    rw [h.vector, List.size_toArray]
    omega
  cases hr : s.rest with
  | nil =>
    obtain ⟨t, hadvance⟩ := h.advance_at_end hr
    obtain ⟨last, hlast⟩ := h.previous
    obtain ⟨p', hloop, htracks⟩ := synchronizeLoop_tracks h hlast hsize
    rw [hr] at htracks
    exact ⟨p', (bind_ok hadvance).trans hloop, htracks⟩
  | cons t rest =>
    rw [hr, List.length_cons] at hsize
    have hfewer : rest.length < p.tokens.size := by omega
    obtain ⟨p', hloop, htracks⟩ := synchronizeLoop_tracks (h.next hr) (h.previous_next hr) hfewer
    exact ⟨p', (bind_ok (h.advance hr)).trans hloop, htracks⟩

/-! ## Following -/

variable {α β γ δ : Type}

/-- Two readings end in the same way, with results that go together as `A` says. -/
inductive Agree (tokens : List Token) (A : α → β → Prop) :
    EStateM.Result Halt Parser α → EStateM.Result Parse.Halt State β → Prop
  | ok {a : α} {b : β} {p : Parser} {s : State} : A a b → Tracks tokens p s → Agree tokens A (.ok a p) (.ok b s)
  | halt {halt : Parse.Halt} {p : Parser} {s : State} : Tracks tokens p s →
      Agree tokens A (.error (.rule halt) p) (.error halt s)

/-- From any place, `r` does what `q` does with what is left behind it. -/
def Follows (tokens : List Token) (A : α → β → Prop) (r : Parsing α) (q : Parse β) : Prop :=
  ∀ p s, Tracks tokens p s → Agree tokens A (r p) (q s)

namespace Follows

variable {A : α → β → Prop} {B : γ → δ → Prop}

theorem bind {r : Parsing α} {q : Parse β} {f : α → Parsing γ} {g : β → Parse δ} (h : Follows tokens A r q)
    (hf : ∀ a b, A a b → Follows tokens B (f a) (g b)) : Follows tokens B (r >>= f) (q >>= g) := by
  intro p s hs
  have h := h p s hs
  show Agree tokens B (EStateM.bind r f p) (EStateM.bind q g s)
  unfold EStateM.bind
  generalize r p = x at h ⊢
  generalize q s = y at h ⊢
  cases h with
  | ok ha h => exact hf _ _ ha _ _ h
  | halt h => exact .halt h

theorem peek : Follows tokens Eq (Parse.peek : Parsing Token) Parse.peek := by
  intro p s hs
  rw [show Parse.peek p = _ from hs.peek]
  exact .ok rfl hs

theorem atEnd : Follows tokens Eq (Parse.atEnd : Parsing Bool) Parse.atEnd := by
  intro p s hs
  rw [show Parse.atEnd p = _ from hs.atEnd]
  exact .ok rfl hs

theorem sees (k : Kind) : Follows tokens Eq (Parse.sees k : Parsing Bool) (Parse.sees k) := by
  intro p s hs
  rw [show Parse.sees k p = _ from hs.check _, Parse.sees_apply]
  exact .ok rfl hs

theorem readIf (is : Kind → Bool) :
    Follows tokens (Option.Rel Eq) (Parse.readIf is : Parsing (Option Token)) (Parse.readIf is) := by
  intro p s hs
  cases hk : nextIs is s.rest with
  | false =>
    rw [hs.readIf_other hk, Parse.readIf_of_not_next hk]
    exact .ok .none hs
  | true =>
    cases hr : s.rest with
    | nil => rw [hr] at hk; cases hk
    | cons t rest =>
      rw [hr, Parse.nextIs_cons] at hk
      rw [hs.readIf hr hk, Parse.readIf_of_next hr hk]
      exact .ok (.some rfl) (hs.next hr)

/-- Going past a token is the same as leaving it out, also at the end, where there is none. -/
theorem skip : Follows tokens (fun _ _ => True) (Parse.skip : Parsing Unit) Parse.skip := by
  intro p s hs
  have hstate : Parse.skip s = .ok () { s with rest := s.rest.tail } := rfl
  have hparser : Parse.skip p = EStateM.map (fun _ => ()) advance p := rfl
  rw [hstate, hparser, EStateM.map]
  cases hr : s.rest with
  | nil =>
    obtain ⟨t, ht⟩ := hs.advance_at_end hr
    rw [ht, List.tail_nil, ← hr]
    exact .ok trivial hs
  | cons t rest =>
    rw [hs.advance hr]
    exact .ok trivial (hs.next hr)

theorem report (t : Token) (fault : SyntaxFault) :
    Follows tokens (fun _ _ => True) (Parse.report t fault : Parsing Unit) (Parse.report t fault) :=
  fun _ _ hs => .ok trivial (hs.fails _)

theorem freshId : Follows tokens Eq (Parse.freshId : Parsing Nat) Parse.freshId :=
  fun _ _ hs => .ok hs.nextId.symm
    ⟨hs.vector, ⟨hs.place.le, hs.place.rest, hs.place.eof⟩, congrArg (· + 1) hs.nextId, hs.errors⟩

theorem assignTo (target value : Expr) (equals : Token) :
    Follows tokens Eq (Parse.assignTo target equals value : Parsing Expr) (Parse.assignTo target equals value) := by
  cases target with
  | var _ name => exact freshId.bind fun _ _ hi _ _ hs => .ok (hi ▸ rfl) hs
  | get object name => exact fun _ _ hs => .ok rfl hs
  | _ => exact (report equals _).bind fun _ _ _ _ _ hs => .ok rfl hs

theorem recovering {r : Parsing α} {q : Parse β} (h : Follows tokens A r q) :
    Follows tokens (Option.Rel A) (Parse.recovering r) (Parse.recovering q) := by
  intro p s hs
  have h := h p s hs
  rw [recovering_apply, Parse.recovering_apply]
  generalize r p = x at h ⊢
  generalize q s = y at h ⊢
  cases h with
  | ok ha h => exact .ok (.some ha) h
  | @halt halt p s h =>
    cases halt with
    | exhausted => exact .halt h
    | reject e =>
      -- the fault is recorded on both sides before either goes on
      obtain ⟨p', hsync, htracks⟩ := synchronize_tracks (h.fails e)
      dsimp only
      rw [bind_ok hsync]
      exact .ok .none htracks

theorem relates (tokens : List Token) : Relates .same (Follows tokens) where
  pure h _ _ hs := .ok h hs
  bind := .bind
  peek := .peek
  atEnd := .atEnd
  sees := .sees
  readIf := .readIf
  skip := .skip
  reject _ := bind .peek fun _ _ ht _ _ hs => ht ▸ .halt hs
  report ht _ := ht ▸ .report _ _
  freshId := .freshId
  assignTo ht he hv := ht ▸ he ▸ hv ▸ .assignTo _ _ _
  recovering := .recovering

end Follows

/-- What a rule makes of the vector, it makes of the tokens that are left. -/
theorem follows (tokens : List Token) (n : Nat) (goal : Goal) :
    Follows tokens Eq (goal.read n) (goal.read n) :=
  have hr := Follows.relates tokens
  (hr.rules_same (fun _ _ _ hs => .halt hs) n).goal hr goal

end Parser
end Lox
