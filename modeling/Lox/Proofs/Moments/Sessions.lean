import Lox.Proofs.Moments.Contracts
import Lox.Proofs.Scope.Sessions

/-!
# Moments of sessions

Each text of a session that passes is run on the machine that the texts before it have left. If machines are good at
first, a contract that is honored holds at every moment of every text.
-/

namespace Lox
open Ending

namespace Session

/-- The moments at which something is run in the session when these texts are run. -/
inductive Passes : Session → List Line → Moment → Prop
  | now {s : Session} {line : Line} {rest : List Line} {p : List Stmt} {warnings : List Warning} {m : Machine}
      {ν : Moment} :
      s.machine.compile line.source = (.ok (p, warnings), m) →
      Moment.Within ⟨line.host, .program p, line.fuel, m⟩ ν → Passes s (line :: rest) ν
  | later {s s' : Session} {line : Line} {rest : List Line} {outcome : Outcome} {ν : Moment} :
      s.run line.host line.fuel line.source = some (outcome, s') → Passes s' rest ν → Passes s (line :: rest) ν

theorem Passes.part {s : Session} {lines : List Line} {μ ν : Moment} (h : s.Passes lines μ) (hp : μ.Part ν) :
    s.Passes lines ν := by
  induction h with
  | now hc hw => exact .now hc (hw.tail hp)
  | later hr _ ih => exact .later hr (ih hp)

/-- What is run is run in the host of one of the texts. -/
theorem Passes.exists_host {s : Session} {lines : List Line} {ν : Moment} (h : s.Passes lines ν) :
    ∃ line ∈ lines, ν.host = line.host := by
  induction h with
  | @now s line rest p warnings m ν _ hw =>
    refine ⟨line, List.mem_cons_self, ?_⟩
    induction hw with
    | refl => rfl
    | tail _ hpart ih =>
      obtain ⟨n, -, hruns⟩ := hpart
      exact (Plan.of_runs hruns).1.trans ih
  | later _ _ ih =>
    obtain ⟨line, hline, hhost⟩ := ih
    exact ⟨line, List.mem_cons_of_mem _ hline, hhost⟩

theorem sameHeap_compile (m : Machine) (source : String) : m.SameHeap (m.compile source).2 := by
  rw [m.compile_snd]
  exact ⟨rfl, rfl, rfl⟩

theorem sameHeap_reportQueued (s : Session) : s.machine.SameHeap s.reportQueued.machine := by
  unfold reportQueued
  rw [machine_addWarnings]
  exact ⟨rfl, rfl, rfl⟩

variable {host : Host} {s s' : Session} {fuel : Nat} {source : String} {outcome : Outcome}

/-- A text that does not pass changes no value. -/
theorem sameHeap_run_of_error {es : List Error} {m : Machine} (hc : s.machine.compile source = (.error es, m))
    (hr : s.run host fuel source = some (outcome, s')) : s.machine.SameHeap s'.machine := by
  have hsame := sameHeap_compile s.machine source
  rw [hc] at hsame
  unfold run at hr
  rw [hc] at hr
  cases hr
  rwa [machine_addErrors]

/-- After a text that passes, what the run has left behind is reported, and that is all. -/
theorem machine_run_of_ok {p : List Stmt} {warnings : List Warning} {m : Machine}
    (hc : s.machine.compile source = (.ok (p, warnings), m)) (hr : s.run host fuel source = some (outcome, s')) :
    ∃ left : Session, left.machine = state (interpret host fuel p m) ∧ s'.machine = left.reportQueued.machine := by
  unfold run at hr
  rw [hc] at hr
  dsimp only at hr
  rw [machine_addWarnings] at hr
  generalize warnings.foldl addWarning { s with machine := m } = reported at hr
  cases hi : interpret host fuel p m with
  | ok u m₁ =>
    rw [hi] at hr
    cases hr
    exact ⟨{ reported with machine := m₁ }, rfl, rfl⟩
  | error e m₁ =>
    rw [hi] at hr
    cases e with
    | exhausted => cases hr
    | failed e =>
      cases hr
      exact ⟨{ reported with machine := m₁ }, rfl, rfl⟩

/-- After a text that passes, values are as its run has left them. -/
theorem sameHeap_run_of_ok {p : List Stmt} {warnings : List Warning} {m : Machine}
    (hc : s.machine.compile source = (.ok (p, warnings), m)) (hr : s.run host fuel source = some (outcome, s')) :
    (state (interpret host fuel p m)).SameHeap s'.machine := by
  obtain ⟨left, hleft, hs'⟩ := machine_run_of_ok hc hr
  rw [← hleft, hs']
  exact sameHeap_reportQueued left

end Session

namespace Contract

variable {c : Contract} {S : Moment → Prop}

/-- Programs that pass are among those the contract lets run. -/
def Admits (c : Contract) : Prop :=
  ∀ {m m' : Machine} {source : String} {p : List Stmt} {warnings : List Warning},
    m.compile source = (.ok (p, warnings), m') → c.Pre (.program p) m'

/-- After any number of texts the machine is good. -/
theorem Honored.good_runAll (h : c.Honored S) (ha : c.Admits) {lines : List Session.Line} {s s' : Session}
    (hg : c.Good s.machine) (hS : ∀ ν, s.Passes lines ν → S ν) (hs : s.runAll lines = some s') :
    c.Good s'.machine := by
  induction lines generalizing s with
  | nil =>
    cases hs
    exact hg
  | cons line rest ih =>
    unfold Session.runAll at hs
    split at hs
    case h_2 => cases hs
    case h_1 o s₁ hr =>
      refine ih ?_ (fun ν hν => hS ν (.later hr hν)) hs
      have hcompile := Session.sameHeap_compile s.machine line.source
      cases hc : s.machine.compile line.source with
      | mk result m =>
        rw [hc] at hcompile
        cases result with
        | error es => exact c.good_same (Session.sameHeap_run_of_error hc hr) hg
        | ok accepted =>
          have hkeeps := h.keeps (hS _ (.now hc .refl)) (c.good_same hcompile hg) (ha hc)
          exact c.good_same (Session.sameHeap_run_of_ok hc hr) hkeeps.good

theorem Honored.fits_session (h : c.Honored S) (ha : c.Admits) {lines : List Session.Line} {s : Session}
    (hg : c.Good s.machine) (hS : ∀ ν, s.Passes lines ν → S ν) :
    ∃ last, c.Onward s.machine last ∧ ∀ ν, s.Passes lines ν → c.Fits last ν := by
  induction lines generalizing s with
  | nil =>
    refine ⟨s.machine, c.onward_same (.refl _), fun ν hν => ?_⟩
    cases hν
  | cons line rest ih =>
    have hcompile := Session.sameHeap_compile s.machine line.source
    -- what the texts after this one lead to
    have hlater : ∀ m, c.Good m →
        (∀ o s', s.run line.host line.fuel line.source = some (o, s') → m.SameHeap s'.machine) →
        ∃ last, c.Onward m last ∧ ∀ o s' ν, s.run line.host line.fuel line.source = some (o, s') →
          s'.Passes rest ν → c.Fits last ν := by
      intro m hm hsame
      by_cases hr : ∃ o s', s.run line.host line.fuel line.source = some (o, s')
      · obtain ⟨o, s', hr⟩ := hr
        have hs := hsame o s' hr
        obtain ⟨last, hon, hfits⟩ := ih (c.good_same hs hm) fun ν hν => hS ν (.later hr hν)
        refine ⟨last, c.trans (c.onward_same hs) hon, fun o₁ s₁ ν hr₁ hν => ?_⟩
        obtain ⟨-, rfl⟩ := Prod.mk.inj (Option.some.inj (hr.symm.trans hr₁))
        exact hfits ν hν
      · exact ⟨m, c.onward_same (.refl _), fun o s' ν hr' => absurd ⟨o, s', hr'⟩ hr⟩
    cases hc : s.machine.compile line.source with
    | mk result m =>
      rw [hc] at hcompile
      cases result with
      | error es =>
        obtain ⟨last, hon, hfits⟩ := hlater s.machine hg fun o s' hr => Session.sameHeap_run_of_error hc hr
        refine ⟨last, hon, fun ν hν => ?_⟩
        cases hν with
        | now hc' _ => cases hc.symm.trans hc'
        | later hr hν => exact hfits _ _ ν hr hν
      | ok accepted =>
        obtain ⟨p, warnings⟩ := accepted
        have hin : S ⟨line.host, .program p, line.fuel, m⟩ := hS _ (.now hc .refl)
        have hgood := c.good_same hcompile hg
        have hkeeps := h.keeps hin hgood (ha hc)
        obtain ⟨last, hon, hfits⟩ := hlater _ hkeeps.good fun o s' hr => Session.sameHeap_run_of_ok hc hr
        refine ⟨last, c.trans (c.onward_same hcompile) (c.trans hkeeps.onward hon), fun ν hν => ?_⟩
        cases hν with
        | now hc' hw =>
          cases hc.symm.trans hc'
          exact (h.fits_within hin ⟨hgood, ha hc, hon⟩ hw).2
        | later hr hν => exact hfits _ _ ν hr hν

end Contract

/-! ## Moments can be listed -/

def Plan.parts (host : Host) (n : Nat) {α : Type} : Plan α → Machine → List Moment
  | .last _, _ => []
  | .step p next, m =>
    match p m with
    | .ok b m' => (next b).parts host n m'
    | .error _ _ => []
  | .sub env job next, m =>
    ⟨host, job, n, m.place env⟩ ::
      match Eval.place env (job.run host n) m with
      | .ok b m' => (next b).parts host n m'
      | .error _ _ => []
  | .tail job, m => [⟨host, job, n, m⟩]
  | .flushing plan, m => plan.parts host n m

theorem Plan.mem_parts_iff {host : Host} {n : Nat} {α : Type} {plan : Plan α} {m : Machine} {ν : Moment} :
    ν ∈ plan.parts host n m ↔ plan.Runs host n ν m := by
  induction plan generalizing m with
  | last p => simp [Plan.parts, Plan.Runs]
  | step p next ih => cases hp : p m <;> simp [Plan.parts, Plan.Runs, hp, ih]
  | sub env job next ih =>
    cases hp : Eval.place env (job.run host n) m <;> simp [Plan.parts, Plan.Runs, hp, ih]
  | tail job => simp [Plan.parts, Plan.Runs]
  | flushing plan ih => exact ih

namespace Moment

/-- The moment and all those within its run, so many steps down. -/
def course : Nat → Moment → List Moment
  | 0, μ => [μ]
  | n + 1, μ => μ :: ((μ.job.plan μ.host).parts μ.host n μ.machine).flatMap (course n)

theorem mem_course_iff {n : Nat} {μ ν : Moment} (hn : μ.depth = n) : ν ∈ course n μ ↔ μ.Within ν := by
  induction n generalizing μ with
  | zero =>
    rw [course, List.mem_singleton]
    constructor
    · rintro rfl
      exact .refl
    · intro hw
      rcases hw.cases_head with rfl | ⟨ρ, ⟨k, hk, -⟩, -⟩
      · rfl
      · cases hn.symm.trans hk
  | succ n ih =>
    rw [course, List.mem_cons, List.mem_flatMap]
    constructor
    · rintro (rfl | ⟨ρ, hρ, hν⟩)
      · exact .refl
      · have hruns := Plan.mem_parts_iff.1 hρ
        exact .head ⟨n, hn, hruns⟩ ((ih (Plan.of_runs hruns).2).1 hν)
    · intro hw
      rcases hw.cases_head with rfl | ⟨ρ, ⟨k, hk, hruns⟩, hw⟩
      · exact .inl rfl
      · obtain rfl : n = k := Nat.succ.inj (hn.symm.trans hk)
        exact .inr ⟨ρ, Plan.mem_parts_iff.2 hruns, (ih (Plan.of_runs hruns).2).2 hw⟩

end Moment

/-- All moments of the session, text by text. -/
def Session.moments : List Line → Session → List Moment
  | [], _ => []
  | line :: rest, s =>
    (match s.machine.compile line.source with
      | (.ok (p, _), m) => Moment.course line.fuel ⟨line.host, .program p, line.fuel, m⟩
      | (.error _, _) => []) ++
    match s.run line.host line.fuel line.source with
    | some (_, s') => moments rest s'
    | none => []

theorem Session.passes_of_mem_moments {lines : List Line} {s : Session} {ν : Moment} (h : ν ∈ s.moments lines) :
    s.Passes lines ν := by
  induction lines generalizing s with
  | nil => cases h
  | cons line rest ih =>
    rcases List.mem_append.1 h with h | h
    · cases hc : s.machine.compile line.source with
      | mk result m =>
        rw [hc] at h
        cases result with
        | error es => cases h
        | ok accepted => exact .now hc ((Moment.mem_course_iff rfl).1 h)
    · cases hr : s.run line.host line.fuel line.source with
      | none =>
        rw [hr] at h
        cases h
      | some result =>
        rw [hr] at h
        exact .later hr (ih h)

end Lox
