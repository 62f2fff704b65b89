import Lox.Proofs.Isolation.Runs

/-!
# What cannot be reached does not matter

A cell that an expression or a statement cannot reach from its environment and the globals is left as it is, and what is
in it has no influence on the result, the output or any other cell. Of a call this holds even
for the cells of its caller, unless the callee or an argument leads to them. So the local variables of two activations
are apart.
-/

namespace Lox
open Ending

/-- The value in which a computation ended, or why it stopped. -/
def Ending.outcome {ε σ α : Type} : EStateM.Result ε σ α → Except ε α
  | .ok a _ => .ok a
  | .error e _ => .error e

namespace Machine

/-- The cells that an expression or a statement starts from. -/
def roots (m : Machine) (c : Cell) : Prop := Env.Mentions Machine.globals c ∨ m.env.Mentions c

/-- The cells that a call starts from, those of the caller not among them. -/
def callRoots (f : Value) (args : List Value) (c : Cell) : Prop :=
  Env.Mentions Machine.globals c ∨ f.Mentions c ∨ ∃ v ∈ args, v.Mentions c

/-- The cell is there and is not reached. -/
def Unreached (m : Machine) (roots : Cell → Prop) (c : Cell) : Prop :=
  (m.contents c).isSome = true ∧ ¬ m.Reaches roots c

/-- The machines have as many cells and agree in all but the contents of these. -/
structure DifferIn (S : Cell → Prop) (m m' : Machine) : Prop where
  rest : m' = { m with frames := m'.frames, objects := m'.objects }
  frames : m'.frames.size = m.frames.size
  objects : m'.objects.size = m.objects.size
  same : ∀ c, ¬ S c → m'.contents c = m.contents c

theorem DifferIn.refl (S : Cell → Prop) (m : Machine) : DifferIn S m m := ⟨rfl, rfl, rfl, fun _ _ => rfl⟩

/-- Cells that are not reached stay as they are, and nothing else depends on them. -/
structure Isolates {α : Type} (m : Machine) (roots : Cell → Prop) (act : Eval α) : Prop where
  unchanged : ∀ c, m.Unreached roots c → (state (act m)).contents c = m.contents c
  independent : ∀ m', DifferIn (m.Unreached roots) m m' →
    outcome (act m') = outcome (act m) ∧ DifferIn (m.Unreached roots) (state (act m)) (state (act m')) ∧
    ∀ c, m.Unreached roots c → (state (act m')).contents c = m'.contents c

/-- The frames that a computation makes, which are those of its local variables. -/
def Makes {α : Type} (m : Machine) (act : Eval α) (i : Nat) : Prop :=
  m.contents (.frame i) = none ∧ ((state (act m)).contents (.frame i)).isSome = true

/-! ## The cells that are not reached are set apart -/

variable {m m' : Machine} {roots : Cell → Prop}

theorem not_unreached_of_reaches {c : Cell} (h : m.Reaches roots c) : ¬ m.Unreached roots c := fun hc => hc.2 h

/-- A cell that is not set apart is reached if it is there, and so is then what its values mention. -/
theorem avoids_of_not_unreached {c : Cell} {t : Table Value} (hc : ¬ m.Unreached roots c)
    (ht : m.contents c = some t) : Table.Avoids (m.Unreached roots) t := by
  have hreached : m.Reaches roots c := by
    by_contra hnot
    exact hc ⟨by rw [ht]; rfl, hnot⟩
  intro name v hv d hd
  exact not_unreached_of_reaches (.held hreached ht hv hd)

def division (m m' : Machine) {roots : Cell → Prop} (hg : ∀ c, Env.Mentions Machine.globals c → roots c) :
    Division where
  apart := m.Unreached roots
  left := m
  right := m'
  globals := not_unreached_of_reaches (.root (hg _ ⟨_, List.mem_singleton_self _, rfl⟩))

theorem alike_of_differIn (hg : ∀ c, Env.Mentions Machine.globals c → roots c)
    (h : DifferIn (m.Unreached roots) m m') : (m.division m' hg).Alike m.env m m' where
  env := rfl
  rest := h.rest
  frames := h.frames
  objects := h.objects
  same := h.same
  kept _ _ := ⟨rfl, rfl⟩
  there _ hc := hc.1
  avoids _ _ hc ht := avoids_of_not_unreached hc ht

theorem Isolates.of_keeps {α : Type} {act : Eval α} (hg : ∀ c, Env.Mentions Machine.globals c → roots c)
    (hkeeps : ∀ D : Division, D.apart = m.Unreached roots → ∃ Q, D.Keeps m.env Q act) : m.Isolates roots act := by
  have hends : ∀ m', DifferIn (m.Unreached roots) m m' → ∃ Q, (m.division m' hg).Ends m.env Q (act m) (act m') := by
    intro m' h
    obtain ⟨Q, hQ⟩ := hkeeps (m.division m' hg) rfl
    exact ⟨Q, hQ m m' (alike_of_differIn hg h)⟩
  refine ⟨fun c hc => ?_, fun m' h => ?_⟩
  · obtain ⟨Q, hsame⟩ := hends m (.refl _ m)
    generalize act m = r at hsame ⊢
    cases hsame with
    | ok _ h₁ => exact (h₁.kept c hc).1
    | error e h₁ => exact (h₁.kept c hc).1
  · obtain ⟨Q, hsame⟩ := hends m' h
    generalize act m = r at hsame ⊢
    generalize act m' = r' at hsame ⊢
    cases hsame with
    | ok _ h₁ => exact ⟨rfl, ⟨h₁.rest, h₁.frames, h₁.objects, h₁.same⟩, fun c hc => (h₁.kept c hc).2⟩
    | error e h₁ => exact ⟨rfl, ⟨h₁.rest, h₁.frames, h₁.objects, h₁.same⟩, fun c hc => (h₁.kept c hc).2⟩

/-- What starts from roots only avoids the cells that are not reached. -/
theorem not_unreached_of_root {c : Cell} (h : roots c) : ¬ m.Unreached roots c := not_unreached_of_reaches (.root h)

theorem isSome_frame {i : Nat} : (m.contents (.frame i)).isSome = true ↔ i < m.frames.size := by
  simp [contents]

end Machine

/-- A binding makes one frame, for `this`. -/
theorem Eval.attach_eq (receiver : Value) (method : Closure) (m : Machine) :
    Eval.attach receiver method m = .ok { method with env := m.frames.size :: method.env }
      { m with frames := m.frames.add [("this", receiver)] } := rfl

/-- At whatever depth and on whatever machine: what an expression or a statement cannot reach from its
environment and the globals it does not change, and it does the same whatever is there. A call does so with
what cannot be reached from the callee, the arguments and the globals. No frame is made by two calls, nor by two
bindings of a method, and a later call leaves those of an earlier one alone unless something that it gets leads
there. -/
theorem isolated {host : Host} (hl : ∀ load, host.loader ≠ .custom load) (hf : host.functions = []) (n : Nat)
    (m : Machine) :
    (∀ e, m.Isolates m.roots (evaluate host n e)) ∧
    (∀ s, m.Isolates m.roots (execute host n s)) ∧
    (∀ paren f args, m.Isolates (Machine.callRoots f args) (call host n paren f args)) ∧
    (∀ m₀ paren₀ f₀ args₀ k i, m₀.Makes (call host k paren₀ f₀ args₀) i →
      (state (call host k paren₀ f₀ args₀ m₀)).frames.size ≤ m.frames.size → ∀ paren f args,
        ¬ m.Makes (call host n paren f args) i ∧
        (¬ m.Reaches (Machine.callRoots f args) (.frame i) →
          (state (call host n paren f args m)).contents (.frame i) = m.contents (.frame i))) ∧
    (∀ m₀ m₁ m₂ receiver₀ receiver method b₀ b, Eval.attach receiver₀ method m₀ = .ok b₀ m₁ →
      m₁.frames.size ≤ m.frames.size → Eval.attach receiver method m = .ok b m₂ →
        ∃ i j, b₀.env = i :: method.env ∧ b.env = j :: method.env ∧ i ≠ j ∧
          m₂.contents (.frame i) = m.contents (.frame i)) := by
  have hcall : ∀ paren f args, m.Isolates (Machine.callRoots f args) (call host n paren f args) := by
    intro paren f args
    refine .of_keeps (fun c hc => .inl hc) fun D hD => ?_
    have hcallee : f.Avoids D.apart := fun c hc => hD ▸ Machine.not_unreached_of_root (.inr (.inl hc))
    have hargs : ∀ v ∈ args, v.Avoids D.apart :=
      fun v hv c hc => hD ▸ Machine.not_unreached_of_root (.inr (.inr ⟨v, hv, hc⟩))
    exact ⟨_, (runsKeep hl hf D n).call hcallee hargs m.env paren⟩
  have henv : ∀ D : Division, D.apart = m.Unreached m.roots → m.env.Avoids D.apart :=
    fun D hD c hc => hD ▸ Machine.not_unreached_of_root (.inr hc)
  refine ⟨fun e => ?_, fun s => ?_, hcall, fun m₀ paren₀ f₀ args₀ k i hmade hlater paren f args => ?_, ?_⟩
  · exact .of_keeps (fun c hc => .inl hc) fun D hD => ⟨_, (runsKeep hl hf D n).evaluate (henv D hD) e⟩
  · exact .of_keeps (fun c hc => .inl hc) fun D hD => ⟨_, (runsKeep hl hf D n).execute (henv D hD) s⟩
  · have hthere : (m.contents (.frame i)).isSome = true :=
      Machine.isSome_frame.2 (Nat.lt_of_lt_of_le (Machine.isSome_frame.1 hmade.2) hlater)
    refine ⟨fun hagain => ?_, fun hnot => (hcall paren f args).unchanged _ ⟨hthere, hnot⟩⟩
    rw [hagain.1] at hthere
    cases hthere
  · intro m₀ m₁ m₂ receiver₀ receiver method b₀ b h₀ hlater h
    rw [Eval.attach_eq] at h₀ h
    injection h₀ with hb₀ hm₁
    injection h with hb hm₂
    subst hb₀ hm₁ hb hm₂
    have hlt : m₀.frames.size < m.frames.size := by simpa using hlater
    refine ⟨m₀.frames.size, m.frames.size, rfl, rfl, Nat.ne_of_lt hlt, ?_⟩
    rw [Machine.contents_add, if_neg fun heq => Nat.ne_of_lt hlt (Cell.frame.inj heq)]

/-- Declares a variable of its own. -/
def Routine.declaring : Routine := ⟨⟨.identifier, "f", 1⟩, [], [.varDecl ⟨.identifier, "x", 1⟩ none]⟩

/-- A function among the globals, and the frame of an earlier call of it. -/
def Machine.calledOnce : Machine where
  frames := #[[("f", .function 0 ⟨.declaring, [0], false⟩)], [("x", .bool true)]]
  env := [0]

theorem Machine.unreached_calledOnce : calledOnce.Unreached calledOnce.roots (.frame 1) := by
  have honly : ∀ c, calledOnce.Reaches calledOnce.roots c → c = .frame 0 := by
    intro c h
    induction h with
    | root hroot =>
      rcases hroot with ⟨i, hi, rfl⟩ | ⟨i, hi, rfl⟩
      · rw [List.mem_singleton.1 hi]
        rfl
      · rw [List.mem_singleton.1 hi]
    | held _ ht hv hd ih =>
      subst ih
      have hglobals : [("f", Value.function 0 ⟨.declaring, [0], false⟩)] = _ := Option.some.inj ht
      rw [← hglobals, Table.get?] at hv
      split at hv
      · cases hv
        obtain ⟨i, hi, rfl⟩ := hd
        rw [List.mem_singleton.1 hi]
      · cases hv
  refine ⟨rfl, fun h => ?_⟩
  cases honly _ h

/-- The second call has a variable `x` of its own, and that of the first call is as it was. -/
theorem isolated_calledOnce :
    (∀ load, ({} : Host).loader ≠ .custom load) ∧ ({} : Host).functions = [] ∧
    Machine.calledOnce.Unreached Machine.calledOnce.roots (.frame 1) ∧
    (let m := state (evaluate {} 9 (.call (.var 0 ⟨.identifier, "f", 1⟩) ⟨.symbol .rightParen, ")", 1⟩ [])
      Machine.calledOnce)
    m.contents (.frame 1) = some [("x", .bool true)] ∧ m.contents (.frame 2) = some [("x", .nil)]) := by
  have hl : ∀ load, ({} : Host).loader ≠ .custom load := nofun
  have hnot := Machine.unreached_calledOnce
  exact ⟨hl, rfl, hnot, ((isolated hl rfl 9 Machine.calledOnce).1 _).unchanged _ hnot, by cbv⟩

end Lox
