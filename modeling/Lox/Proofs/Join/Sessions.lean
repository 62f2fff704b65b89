import Lox.Proofs.Join.Runs
import Lox.Proofs.Match.Sessions

/-!
# Texts one below the other

A session that runs a text to its end, and then another, comes to what it comes to when it runs both as one text:
the same outcome, the same text written, the same globals up to the identities and lines in functions.
-/

namespace Lox

/-! ## The names of the globals -/

theorem Machine.mem_globalNames (m : Machine) (name : String) :
    name ∈ m.globalNames ↔ (m.global? name).isSome = true := by
  unfold Machine.globalNames Machine.global? Frames.names Frames.read
  cases m.frames[Machine.globalFrame]? with
  | none => simp
  | some frame =>
    show name ∈ frame.sortedNames ↔ _
    rw [Table.sortedNames, List.mem_mergeSort, Table.mem_names]

namespace Session

/-! ## Sessions that correspond -/

/-- The second session is where the first is, up to the identities of expressions and, for what was read last, lines
that are `c` further down. -/
structure Corresponds (π : Pairing) (c : Nat) (s t : Session) : Prop where
  lines : ∀ k l, π.line k l → l = k ∨ l = k + c
  text : t.machine.output.text = s.machine.output.text
  names : ∀ name, name ∈ t.machine.globalNames ↔ name ∈ s.machine.globalNames
  globals : ∀ name, Option.Rel (Value.Matched π.matching) (s.machine.global? name)
    (t.machine.global? name)
  machine : s.machine.Matched π t.machine
  errors : List.Forall₂ (Error.Lowered c) s.errors t.errors

theorem Corresponds.of_matched {π : Pairing} {c : Nat} {s t : Session}
    (hl : ∀ k l, π.line k l → l = k ∨ l = k + c) (h : s.machine.Matched π t.machine)
    (he : List.Forall₂ (Error.Lowered c) s.errors t.errors) : s.Corresponds π c t where
  lines := hl
  text := h.output.text
  names name := by
    rw [Machine.mem_globalNames, Machine.mem_globalNames]
    exact Iff.of_eq (congrArg (· = true) (h.isSome_read _ _))
  globals := h.frames Machine.globalFrame
  machine := h
  errors := he

/-- Errors that were there before stay as they are. -/
theorem forall₂_lowered_append {c : Nat} (es : List Error) {new new' : List Error}
    (h : List.Forall₂ (Error.Lowered c) new new') :
    List.Forall₂ (Error.Lowered c) (es ++ new) (es ++ new') :=
  List.rel_append (List.forall₂_same.2 fun _ _ => .inl rfl) h

/-! ## Runs -/

theorem run_eq_ok {host : Host} {fuel : Nat} {source : String} {s t : Session}
    (h : s.run host fuel source = some (.ok, t)) :
    ∃ program m m', s.machine.Accepts source program m ∧ interpret host fuel program m = .ok () m' ∧
      t.machine = { m' with warnings := [] } ∧ t.errors = s.errors := by
  cases hc : s.machine.compile source with
  | mk result m =>
    cases result with
    | error es =>
      unfold Session.run at h
      rw [hc] at h
      cases h
    | ok accepted =>
      obtain ⟨program, warnings⟩ := accepted
      have hran := run_of_compile hc host fuel
      rw [h] at hran
      generalize hr : interpret host fuel program m = r at hran
      cases hran with
      | ok hadds hmachine =>
        refine ⟨program, m, _, .of_compile hc, hr, hmachine, ?_⟩
        rw [hadds.errors, List.append_nil]

/-- With depth enough for the first part, the joined text ends as the second does where the first has led. -/
theorem run_alike {host : Host} {joined second : String} {c : Nat} {s s₁ : Session}
    (hs : s₁.errors = s.errors) {p₂ q : List Stmt} {n₂ m' : Machine}
    (h₂ : s₁.machine.Accepts second p₂ n₂) (h : s.machine.Accepts joined q m') {π : Pairing}
    (hl : ∀ x y, π.line x y → y = x ∨ y = x + c) (he : π.error = Error.Lowered c) {k l : Nat}
    (hrun : Eval.Ended π Eq (interpret host k p₂ n₂) (interpret host l q m')) :
    Option.Rel (fun r r' => r'.1 = r.1 ∧ ∃ π, r.2.Corresponds π c r'.2)
      (s₁.run host k second) (s.run host l joined) := by
  have hran := run_of_compile h₂.compile host k
  have hran' := run_of_compile h.compile host l
  have hqueued : ∀ {x x' : Machine}, x.Matched π x' →
      { x with warnings := [] }.Matched (π.requeue [] []) { x' with warnings := [] } :=
    fun hm => { hm with warnings := ⟨[], rfl, rfl⟩ }
  generalize interpret host k p₂ n₂ = r at hrun hran
  generalize interpret host l q m' = r' at hrun hran'
  generalize s₁.run host k second = o at hran ⊢
  generalize s.run host l joined = o' at hran' ⊢
  cases hrun with
  | exhausted =>
    cases hran
    cases hran'
    exact .none
  | @ok _ _ x x' _ hm =>
    cases hran with
    | ok hadds hmachine =>
    cases hran' with
    | ok hadds' hmachine' =>
    refine .some ⟨rfl, π.requeue [] [], .of_matched hl ?_ ?_⟩
    · rw [hmachine, hmachine']
      exact hqueued hm
    · rw [hadds.errors, hadds'.errors, hs]
      exact forall₂_lowered_append _ .nil
  | @failed e e' x x' herror hm =>
    rw [he] at herror
    cases hran with
    | failed hadds hmachine =>
    cases hran' with
    | failed hadds' hmachine' =>
    refine .some ⟨rfl, π.requeue [] [], .of_matched hl ?_ ?_⟩
    · rw [hmachine, hmachine']
      exact hqueued hm
    · rw [hadds.errors, hadds'.errors, hs]
      exact forall₂_lowered_append _ (.cons herror .nil)

/-- A text that ends well, and then another that passes: the session comes to what it comes to when it runs the
one below the other as a single text, and it comes to an end if and only if it does then. The two differ in
the identities of expressions and in the lines of what was read last; an error in the end is the same, on its
line or that many lines further down. -/
theorem ends_join {host : Host} (hh : host.Honest) (hb : host.Blind) (ho : host.KeepsOutput)
    {s s₁ : Session} (hs : s.Reachable) (hw : s.machine.output.Works) {first second : String}
    (hfirst : s.Ends host first .ok s₁)
    (hsecond : ∃ accepted, (s.machine.compile second).1 = .ok accepted) :
    (∀ o s₂, s₁.Ends host second o s₂ → ∃ t π, s.Ends host (first ++ "\n" ++ second) o t ∧
      s₂.Corresponds π (Scan.newlines first.toList + 1) t) ∧
    ∀ o t, s.Ends host (first ++ "\n" ++ second) o t → ∃ s₂ π, s₁.Ends host second o s₂ ∧
      s₂.Corresponds π (Scan.newlines first.toList + 1) t := by
  obtain ⟨fuel, hrun⟩ := hfirst
  obtain ⟨log, hg⟩ := hs.good
  obtain ⟨log', hg'⟩ := (Reachable.run hh hs hrun).good
  obtain ⟨p₁, m₁, e₁, h₁, hinterpret, hmachine, herrors⟩ := run_eq_ok hrun
  cases fuel with
  | zero => cases hinterpret
  | succ d =>
    obtain ⟨p₂, n₂, h₂⟩ : ∃ p n, s₁.machine.Accepts second p n := by
      obtain ⟨⟨p, ws⟩, hp⟩ := hsecond
      have hc : s.machine.compile second = (.ok (p, ws), (s.machine.compile second).2) := Prod.ext hp rfl
      exact (Machine.Accepts.of_compile hc).elsewhere (fun _ hi => hg.fresh hi) fun _ hi => hg'.fresh hi
    obtain ⟨q₁, q₂, m', h, hj⟩ := h₁.join h₂ (fun _ hi => hg.fresh hi) fun _ hi => hg'.fresh hi
    have halike : ∀ k, d ≤ k → Option.Rel
        (fun r r' => r'.1 = r.1 ∧ ∃ π, r.2.Corresponds π (Scan.newlines first.toList + 1) r'.2)
        (s₁.run host (k + 1) second)
        (s.run host (k + q₁.length + 1) (first ++ "\n" ++ second)) := by
      intro k hk
      obtain ⟨π, hl, he, hended⟩ := hj.interpret_alike hh hb ho hg hw h₁ h hinterpret hmachine hg' h₂
        (Nat.le_trans hk (Nat.le_add_right k _))
      exact run_alike herrors h₂ h hl he hended
    constructor
    · rintro o s₂ ⟨k, hk⟩
      have hdeep : s₁.run host (d + k + 1) second = some (o, s₂) := run_of_le (by omega) hk
      have hboth := halike (d + k) (Nat.le_add_right d k)
      rw [hdeep] at hboth
      generalize hjoined : s.run host (d + k + q₁.length + 1) (first ++ "\n" ++ second) = r at hboth
      cases hboth with
      | @some _ r' hr =>
        obtain ⟨o', t⟩ := r'
        obtain ⟨rfl, π, hcorresponds⟩ := hr
        exact ⟨t, π, ⟨_, hjoined⟩, hcorresponds⟩
    · rintro o t ⟨k, hk⟩
      have hdeep : s.run host (d + k + q₁.length + 1) (first ++ "\n" ++ second) = some (o, t) :=
        run_of_le (by omega) hk
      have hboth := halike (d + k) (Nat.le_add_right d k)
      rw [hdeep] at hboth
      generalize halone : s₁.run host (d + k + 1) second = r at hboth
      cases hboth with
      | @some r' _ hr =>
        obtain ⟨o', s₂⟩ := r'
        obtain ⟨rfl, π, hcorresponds⟩ := hr
        exact ⟨s₂, π, ⟨_, halone⟩, hcorresponds⟩

/-- Makes an object, on two lines. -/
def definingText : String := "class A \x7b m(x) \x7b return x; \x7d \x7d\nvar a = A();"

/-- Calls a method of the object, and then names a variable that is not there. -/
def callingText : String := "print a.m(nil); b;"

set_option maxRecDepth 20000 in
theorem run_definingText :
    ((Session.start {} {} {}).run {} 30 definingText).bind (fun r =>
      match r.2.machine.compile callingText with
      | (.ok (program, []), m) =>
        match interpret {} 30 program m with
        | .error (.failed e) _ => some (r.1, r.2.errors, e)
        | _ => none
      | _ => none) = some (.ok, [], .runtime 1 (.undefinedVariable "b")) := by
  cbv

set_option maxRecDepth 20000 in
theorem compile_callingText : ((Machine.start {} {}).compile callingText).1.isOk = true := by
  cbv

theorem ends_join_callingText :
    ∃ s₁ s₂ t π, (Session.start {} {} {}).Ends {} definingText .ok s₁ ∧
      s₁.Ends {} callingText .runtimeError s₂ ∧ s₂.errors = [.runtime 1 (.undefinedVariable "b")] ∧
      (Session.start {} {} {}).Ends {} (definingText ++ "\n" ++ callingText) .runtimeError t ∧
      s₂.Corresponds π 2 t := by
  have hrun := run_definingText
  obtain ⟨⟨o, s₁⟩, hfirst, hsecond⟩ := Option.bind_eq_some_iff.1 hrun
  split at hsecond
  case h_1 program m hc =>
    split at hsecond
    case h_1 e m' hi =>
      simp only [Option.some.injEq, Prod.mk.injEq] at hsecond
      obtain ⟨rfl, hnone, rfl⟩ := hsecond
      obtain ⟨s₂, hs₂, -, herr⟩ := run_of_failed (s := s₁) hc hi
      rw [hnone, List.nil_append] at herr
      have hends : s₁.Ends {} callingText .runtimeError s₂ := ⟨30, hs₂⟩
      have haccepted : ∃ accepted, ((Machine.start {} {}).compile callingText).1 = .ok accepted := by
        have hok := compile_callingText
        generalize ((Machine.start {} {}).compile callingText).1 = result at hok ⊢
        cases result with
        | ok accepted => exact ⟨accepted, rfl⟩
        | error es => cases hok
      obtain ⟨t, π, ht, hcorresponds⟩ := (ends_join Trace.honest_default blind_default nofun
        (.start {} {} {}) ⟨fun _ => rfl, fun _ => rfl⟩ ⟨30, hfirst⟩ haccepted).1 _ _ hends
      exact ⟨s₁, s₂, t, π, ⟨30, hfirst⟩, hends, herr, ht, hcorresponds⟩
    case h_2 => cases hsecond
  case h_2 => cases hsecond

end Session
end Lox
