import Lox.Proofs.Depth
import Lox.Proofs.Flow.Sessions
import Lox.Proofs.Join.Machines

/-!
# Running two programs as one

A program that runs through leaves a machine on which another may be read and run. The joined program, run on
the first machine, gets to a matched machine after its first part; from there its second part runs as
the other program does.
-/

namespace Lox
open Eval

/-! ## Texts that pass -/

/-- A text passes on one machine and leads to another. -/
structure Machine.Accepts (m : Machine) (source : String) (program : List Stmt) (m' : Machine) : Prop where
  read : Stmt.read source m.nextNode = (.ok program, m'.nextNode)
  faultless : (Stmt.analyse program m.distances).errors = []
  distances : m'.distances = (Stmt.analyse program m.distances).distances
  rest : { m with nextNode := m'.nextNode, distances := m'.distances } = m'

namespace Machine.Accepts

variable {m m' : Machine} {source : String} {program : List Stmt}

theorem of_compile {warnings : List Warning} (h : m.compile source = (.ok (program, warnings), m')) :
    m.Accepts source program m' := by
  obtain ⟨next, hread, he, -, rfl⟩ := Machine.compile_eq_ok.1 h
  exact ⟨hread, he, rfl, rfl⟩

theorem compile (h : m.Accepts source program m') :
    m.compile source = (.ok (program, (Stmt.analyse program m.distances).warnings), m') := by
  refine Machine.compile_eq_ok.2 ⟨m'.nextNode, h.read, h.faultless, rfl, ?_⟩
  rw [← h.distances]
  exact h.rest.symm

theorem ids (h : m.Accepts source program m') :
    Fresh m.nextNode m'.nextNode (Stmt.nodesAll program) :=
  (Stmt.read_sound h.read).2

theorem compiled (h : m.Accepts source program m') : Trace.Compiled m m' := by
  have hc := Trace.compiled m source
  rw [h.compile] at hc
  exact hc

/-- Identities that are still to be handed out have no distances. -/
theorem fresh (h : m.Accepts source program m') (hm : ∀ i, m.nextNode ≤ i → m.distances[i]? = none)
    {i : Nat} (hi : m'.nextNode ≤ i) : m'.distances[i]? = none := by
  rw [h.compiled.distances (.inr hi)]
  exact hm i (Nat.le_trans h.compiled.nextNode hi)

end Machine.Accepts

/-- Whether a text passes does not depend on what was read before. -/
theorem Machine.Accepts.elsewhere {source : String} {m n n' : Machine} {p : List Stmt}
    (h : n.Accepts source p n') (hn : ∀ i, n.nextNode ≤ i → n.distances[i]? = none)
    (hm : ∀ i, m.nextNode ≤ i → m.distances[i]? = none) : ∃ q m', m.Accepts source q m' := by
  have hread := (Stmt.read_matched (Parse.abreast_lower 0) (fun _ => rfl) source (fun _ _ => trivial)
    (i := n.nextNode) (j := m.nextNode) trivial).1
  rw [h.read] at hread
  cases hr : Stmt.read source m.nextNode with
  | mk result next =>
    rw [hr] at hread
    cases hread with
    | @ok _ q hq =>
      have hids := (Stmt.read_sound hr).2
      have hstart : ∀ d : Distances, ({ distances := d } : Scoping.Analysis).Clear :=
        fun _ => ⟨rfl, rfl⟩
      have ha := hq.resolve_inPlace h.ids.nodup hids.nodup (hstart n.distances) (hstart m.distances)
        (fun i hi => hn i (h.ids.low_le i hi)) (fun j hj => hm j (hids.low_le j hj))
      have herrors := ha.errors
      rw [show (Stmt.resolveAll {} p { distances := n.distances }).errors = [] from h.faultless] at herrors
      exact ⟨q, { m with
        nextNode := next, distances := (Stmt.analyse q m.distances).distances },
        hr, List.forall₂_nil_left_iff.1 herrors, rfl, rfl⟩

/-- Two programs and the parts of the joined program, on the machines that they were read on. -/
structure Joined (c : Nat) (p₁ p₂ q₁ q₂ : List Stmt) (m₁ m₂ m : Machine) : Prop where
  first : Stmt.MatchedAll (.lower 0) p₁ q₁
  second : Stmt.MatchedAll (.lower c) p₂ q₂
  inFirst {i j : Nat} : (i, j) ∈ (Stmt.nodesAll p₁).zip (Stmt.nodesAll q₁) →
    m.distances[j]? = m₁.distances[i]?
  inSecond {i j : Nat} : (i, j) ∈ (Stmt.nodesAll p₂).zip (Stmt.nodesAll q₂) →
    m.distances[j]? = m₂.distances[i]?

/-- Two texts that pass, each on a machine of its own, pass as one on the first machine. -/
theorem Machine.Accepts.join {first second : String} {m m₁ n n₂ : Machine} {p₁ p₂ : List Stmt}
    (h₁ : m.Accepts first p₁ m₁) (h₂ : n.Accepts second p₂ n₂)
    (hm : ∀ i, m.nextNode ≤ i → m.distances[i]? = none)
    (hn : ∀ i, n.nextNode ≤ i → n.distances[i]? = none) :
    ∃ q₁ q₂ m', m.Accepts (first ++ "\n" ++ second) (q₁ ++ q₂) m' ∧
      Joined (Scan.newlines first.toList + 1) p₁ p₂ q₁ q₂ m₁ n₂ m' := by
  obtain ⟨q₁, q₂, next, hread, hfirst, hsecond⟩ := Stmt.read_join h₁.read h₂.read m.nextNode
  have hids := (Stmt.read_sound hread).2
  have ha := Stmt.analyse_join hfirst hsecond h₁.ids.nodup h₂.ids.nodup hids.nodup
    (fun i hi => hm i (h₁.ids.low_le i hi)) (fun i hi => hn i (h₂.ids.low_le i hi))
    (fun j hj => hm j (hids.low_le j hj)) h₁.faultless h₂.faultless
  refine ⟨q₁, q₂, { m with
    nextNode := next, distances := (Stmt.analyse (q₁ ++ q₂) m.distances).distances },
    ⟨hread, ha.errors, rfl, rfl⟩, hfirst, hsecond, fun hij => ?_, fun hij => ?_⟩
  · rw [h₁.distances]
    exact ha.first hij
  · rw [h₂.distances]
    exact ha.second hij

/-! ## Up to the second program -/

section

variable {host : Host} {first second : String} {c : Nat} {p₁ p₂ q₁ q₂ : List Stmt}
  {m m₁ n₂ m' : Machine} {log : Trace.Log}

/-- A machine matches itself. -/
theorem Trace.Good.matched_same (hg : Trace.Good ⟨m, log⟩) :
    m.Matched (.kept m.nextNode m.nextNode (Nat.le_refl _)) m :=
  hg.numbered.matched (Nat.le_refl _) (fun _ _ => rfl) fun _ hi => hg.fresh hi

/-- The first program and the first part of the joined one, on the same machine. -/
theorem Joined.admits_first (hj : Joined c p₁ p₂ q₁ q₂ m₁ n₂ m') (hg : Trace.Good ⟨m, log⟩)
    (h₁ : m.Accepts first p₁ m₁) (h : m.Accepts second (q₁ ++ q₂) m') :
    Admits (.kept m.nextNode m.nextNode (Nat.le_refl _)) m m p₁ q₁ m₁.nextNode m'.nextNode
      m₁.distances m'.distances := by
  have hids := h.ids
  rw [Stmt.nodesAll_append] at hids
  have hq₁ : ∀ j ∈ Stmt.nodesAll q₁, j ∈ Stmt.nodesAll q₁ ++ Stmt.nodesAll q₂ :=
    fun j hj => List.mem_append_left _ hj
  exact
    { next := h₁.compiled.nextNode
      next' := h.compiled.nextNode
      ids := h₁.ids
      nodup := (List.nodup_append.1 hids.nodup).1
      lt_next := fun hj => hids.lt_high _ (hq₁ _ hj)
      apart := by
        rintro i j (⟨rfl, hi⟩ | ⟨k, rfl, rfl⟩) hlt hj
        · exact Nat.not_lt.2 (hids.low_le i (hq₁ i hj)) hi
        · exact absurd hlt (Nat.not_lt.2 (Nat.le_add_right _ _))
      kept := fun hi => h₁.compiled.distances (.inl hi)
      kept' := fun hi => h.compiled.distances (.inl hi)
      inPlace := hj.inFirst
      fresh := fun hi => h₁.fresh (fun _ hi => hg.fresh hi) hi
      fresh' := fun hi => h.fresh (fun _ hi => hg.fresh hi) hi }

/-- The second program, where the first has led, and the second part of the joined one, which was read before.
-/
theorem Joined.admits_second (hj : Joined c p₁ p₂ q₁ q₂ m₁ n₂ m') {n x : Machine} {π : Pairing}
    (h : m.Accepts first (q₁ ++ q₂) m') (h₂ : n.Accepts second p₂ n₂)
    (hn : ∀ i, n.nextNode ≤ i → n.distances[i]? = none) (hx : m'.nextNode ≤ x.nextNode)
    (hd : ∀ {j}, j < m'.nextNode → x.distances[j]? = m'.distances[j]?)
    (hfresh : ∀ j, x.nextNode ≤ j → x.distances[j]? = none)
    (hπ : ∀ i j, π.matching.node i j → j < m.nextNode ∨ j ∈ Stmt.nodesAll q₁ ∨ m'.nextNode ≤ j) :
    Admits π n x p₂ q₂ n₂.nextNode x.nextNode n₂.distances x.distances := by
  have hids := h.ids
  rw [Stmt.nodesAll_append] at hids
  have hq₂ : ∀ j ∈ Stmt.nodesAll q₂, m.nextNode ≤ j ∧ j < m'.nextNode :=
    fun j hj => ⟨hids.low_le j (List.mem_append_right _ hj), hids.lt_high j (List.mem_append_right _ hj)⟩
  obtain ⟨-, hnodup, hapart⟩ := List.nodup_append.1 hids.nodup
  exact
    { next := h₂.compiled.nextNode
      next' := Nat.le_refl _
      ids := h₂.ids
      nodup := hnodup
      lt_next := fun hj => Nat.lt_of_lt_of_le (hq₂ _ hj).2 hx
      apart := by
        intro i j hij _ hmem
        have hj := hq₂ j hmem
        rcases hπ i j hij with hlt | hq₁ | hle
        · omega
        · exact hapart j hq₁ j hmem rfl
        · omega
      kept := fun hi => h₂.compiled.distances (.inl hi)
      kept' := fun _ => rfl
      inPlace := fun hij => by
        rw [hd (hq₂ _ (List.of_mem_zip hij).2).2]
        exact hj.inSecond hij
      fresh := fun hi => h₂.fresh hn hi
      fresh' := fun hj => hfresh _ hj }

/-! ## Both programs -/

/-- On matched machines, a program that runs through and the first part of a joined program get to matched
machines, and the second part goes on from there. -/
theorem executeAll_first {π : Pairing} (hh : host.Honest) (hb : host.Blind) (ho : host.KeepsOutput)
    (hm : m₁.Matched π m') (hp : Stmt.MatchedAll π.matching p₁ q₁)
    (hc : Stmt.AllConfined .topLevel false p₁) {d : Nat} {e₁ : Machine}
    (hrun : interpret host (d + 1) p₁ m₁ = .ok () e₁) {k : Nat} (hk : d ≤ k + q₁.length)
    (q₂ : List Stmt) :
    ∃ x x', e₁ = { x with env := m₁.env, output := x.output.flush.2 } ∧ x.Matched π x' ∧
      { m₁ with env := Machine.globals }.Keeps x ∧ { m' with env := Machine.globals }.Keeps x' ∧
      executeAll host (k + q₁.length) (q₁ ++ q₂) { m' with env := Machine.globals } =
        executeAll host k q₂ x' := by
  obtain ⟨flow, x, hx, rfl⟩ := interpret_eq_ok hrun
  obtain rfl := ((flowsConfined host d).executeAll hc hx).eq_normal
  have hdeep := (executeAll_extends host p₁ hk).eq_ok hx
  have halike := (runsAlike hb π (k + q₁.length)).executeAll hp { m₁ with env := Machine.globals }
    { m' with env := Machine.globals } { hm with env := rfl }
  rw [hdeep] at halike
  generalize hr : executeAll host (k + q₁.length) q₁ { m' with env := Machine.globals } = r at halike
  cases halike with
  | @ok _ _ _ x' hflow hmatched =>
    cases hflow
    refine ⟨x, x', rfl, hmatched, executeAll_keeps hh ho hx, executeAll_keeps hh ho hr, ?_⟩
    rw [executeAll_append, Ending.bind_ok hr]

/-- The first program ran through on a machine that came to `n`, where the second was read. Then the second runs there
as the joined program does on the first machine, if there is depth enough for the first part. -/
theorem Joined.interpret_alike (hh : host.Honest) (hb : host.Blind) (ho : host.KeepsOutput)
    {joined : String} (hj : Joined c p₁ p₂ q₁ q₂ m₁ n₂ m') (hg : Trace.Good ⟨m, log⟩)
    (hw : m.output.Works) (h₁ : m.Accepts first p₁ m₁) (h : m.Accepts joined (q₁ ++ q₂) m')
    {d : Nat} {e₁ n : Machine} (hrun : interpret host (d + 1) p₁ m₁ = .ok () e₁)
    (hn : n = { e₁ with warnings := [] }) {log' : Trace.Log} (hg' : Trace.Good ⟨n, log'⟩)
    (h₂ : n.Accepts second p₂ n₂) {k : Nat} (hk : d ≤ k + q₁.length) :
    ∃ π : Pairing, (∀ x y, π.line x y → y = x ∨ y = x + c) ∧ π.error = Error.Lowered c ∧
      Ended π Eq (interpret host (k + 1) p₂ n₂)
        (interpret host (k + q₁.length + 1) (q₁ ++ q₂) m') := by
  have hfirst := hj.admits_first hg h₁ h
  have hm₁ := hfirst.matched (c := c) hg.matched_same hg fun _ _ hxy => .inl hxy.symm
  rw [h₁.rest, h.rest] at hm₁
  obtain ⟨x, x', rfl, hx, hkeep, hkeep', happend⟩ := executeAll_first hh hb ho hm₁
    (hfirst.program hg.matched_same (.inl rfl) hj.first) (Stmt.confined_of_analyse h₁.faultless) hrun hk q₂
  -- from here the machines are those on which the second program was read, and the joined one runs on
  have henv : m₁.env = m.env := h₁.compiled.env
  have hworks : x.output.Works := by
    refine hkeep.output ?_
    rw [← h₁.rest]
    exact hw
  have hx₁ := hx.requeue m.env (hx.output.flushed hworks) [] x'.warnings
  rw [henv] at hn
  subst hn
  have hnodes : ∀ i j, ((hfirst.pairing hg.matched_same c).requeue [] x'.warnings).matching.node i j →
      j < m.nextNode ∨ j ∈ Stmt.nodesAll q₁ ∨ m'.nextNode ≤ j := by
    rintro i j ((⟨⟨rfl, hi⟩ | ⟨l, rfl, rfl⟩, hlt⟩ | hij) | ⟨l, rfl, rfl⟩)
    · exact .inl hi
    · exact .inl hlt
    · exact .inr (.inl (List.of_mem_zip hij).2)
    · exact .inr (.inr (Nat.le_add_right _ _))
  have hsecond := hj.admits_second (x := { x' with env := m.env }) h h₂ (fun _ hi => hg'.fresh hi)
    hkeep'.nextNode hkeep'.distances hx.fresh' hnodes
  have hm₂ := hsecond.matched (c := c) hx₁ hg' fun _ _ hxy => hxy
  rw [h₂.rest] at hm₂
  have hrun₂ := (runsAlike hb _ k).executeAll (hsecond.program hx₁ (.inr rfl) hj.second)
    { n₂ with env := Machine.globals } { x' with env := Machine.globals } { hm₂ with env := rfl }
  have hglobals : Machine.globals = x'.env := hkeep'.env.symm
  have hxenv : ({ x' with env := Machine.globals } : Machine) = x' := by rw [hglobals]
  rw [hxenv, ← happend] at hrun₂
  refine ⟨hsecond.pairing hx₁ c, fun _ _ hxy => hxy, rfl, ?_⟩
  exact Alike.ended_flushing (Alike.ended_inEnv _ (h.compiled.env.trans h₂.compiled.env.symm)
    (Alike.ended_discard hrun₂))

end

end Lox
