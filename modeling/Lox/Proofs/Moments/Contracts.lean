import Lox.Proofs.Moments.Plans

/-!
# What holds at every moment of a run

A contract says what a machine has to be like, what each run may rely on besides, and what it leaves behind. It is
enough to look at single plans: if every plan keeps to the contract as long as the runs that it is made of do,
then all runs keep to it, and whatever is run anywhere within them is run on a machine as the contract wants it.
-/

namespace Lox
open Ending Eval

/-! ## Moments -/

/-- Something is run in a host, with so much depth to spare, on the machine as it is then. -/
structure Moment where
  {type : Type}
  host : Host
  job : Job type
  depth : Nat
  machine : Machine

def Moment.ending (μ : Moment) : EStateM.Result Stop Machine μ.type :=
  μ.job.run μ.host μ.depth μ.machine

/-- The machine in the environment that is given, if one is. -/
def Machine.place (env : Option Env) (m : Machine) : Machine := { m with env := env.getD m.env }

/-- The plan, followed from the machine, comes to that moment. -/
def Plan.Runs (host : Host) (n : Nat) (ν : Moment) {α : Type} : Plan α → Machine → Prop
  | .last _, _ => False
  | .step p next, m => ∃ b m', p m = .ok b m' ∧ (next b).Runs host n ν m'
  | .sub env job next, m =>
    ν = ⟨host, job, n, m.place env⟩ ∨
      ∃ b m', place env (job.run host n) m = .ok b m' ∧ (next b).Runs host n ν m'
  | .tail job, m => ν = ⟨host, job, n, m⟩
  | .flushing plan, m => plan.Runs host n ν m

namespace Moment

/-- The run at the first moment is made of that at the second and others. -/
def Part (μ ν : Moment) : Prop :=
  ∃ n, μ.depth = n + 1 ∧ (μ.job.plan μ.host).Runs μ.host n ν μ.machine

/-- The second moment comes about in the course of the run at the first. -/
def Within : Moment → Moment → Prop := Relation.ReflTransGen Part

end Moment

/-! ## Contracts -/

/-- All values are where they were, and no more identities are taken. -/
structure Machine.SameHeap (m m' : Machine) : Prop where
  frames : m'.frames = m.frames
  objects : m'.objects = m.objects
  nextRef : m'.nextRef = m.nextRef

theorem Machine.SameHeap.refl (m : Machine) : m.SameHeap m := ⟨rfl, rfl, rfl⟩

structure Contract where
  /-- How machines are between any two steps. -/
  Good : Machine → Prop
  /-- How machines may change. -/
  Onward : Machine → Machine → Prop
  /-- What can be relied on when something is run. -/
  Pre : {α : Type} → Job α → Machine → Prop
  /-- What can be said of the result. -/
  Post : {α : Type} → Job α → α → Machine → Prop
  trans : ∀ {m₁ m₂ m₃}, Onward m₁ m₂ → Onward m₂ m₃ → Onward m₁ m₃
  onward_same : ∀ {m m'}, m.SameHeap m' → Onward m m'
  good_same : ∀ {m m'}, m.SameHeap m' → Good m → Good m'
  post_same : ∀ {α} {job : Job α} {a m m'}, m.SameHeap m' → Post job a m → Post job a m'

/-- From `m` the computation ended in a good machine, and in a value that is as wanted if it ended in one. -/
structure Contract.Keeps (c : Contract) {α : Type} (m : Machine) (Q : α → Machine → Prop)
    (r : EStateM.Result Stop Machine α) : Prop where
  onward : c.Onward m (state r)
  good : c.Good (state r)
  value : ∀ {a m'}, r = .ok a m' → Q a m'

namespace Contract.Keeps

variable {c : Contract} {α β : Type} {m m' : Machine} {Q : α → Machine → Prop}

theorem ok {a : α} (ho : c.Onward m m') (hg : c.Good m') (hq : Q a m') : c.Keeps m Q (.ok a m') := by
  refine ⟨ho, hg, ?_⟩
  rintro a m' ⟨⟩
  exact hq

theorem error {e : Stop} (ho : c.Onward m m') (hg : c.Good m') : c.Keeps m Q (.error e m' : EStateM.Result _ _ α) :=
  ⟨ho, hg, nofun⟩

theorem after {r : EStateM.Result Stop Machine α} (ho : c.Onward m m') (h : c.Keeps m' Q r) : c.Keeps m Q r :=
  ⟨c.trans ho h.onward, h.good, h.value⟩

theorem imp {P : α → Machine → Prop} {r : EStateM.Result Stop Machine α} (h : c.Keeps m P r)
    (hq : ∀ a m', c.Onward m m' → c.Good m' → P a m' → Q a m') : c.Keeps m Q r := by
  cases r with
  | ok a m' => exact .ok h.onward h.good (hq a m' h.onward h.good (h.value rfl))
  | error e m' => exact .error h.onward h.good

theorem bind {P : β → Machine → Prop} {p : Eval β} {f : β → Eval α} (hp : c.Keeps m P (p m))
    (hf : ∀ b m', p m = .ok b m' → c.Onward m m' → c.Good m' → P b m' → c.Keeps m' Q (f b m')) :
    c.Keeps m Q ((p >>= f) m) := by
  cases heq : p m with
  | ok b m' =>
    rw [heq] at hp
    rw [bind_ok heq]
    exact .after hp.onward (hf b m' heq hp.onward hp.good (hp.value rfl))
  | error e m' =>
    rw [heq] at hp
    rw [bind_error heq]
    exact .error hp.onward hp.good

end Contract.Keeps

/-- From `m` the plan keeps to the contract as long as the runs it is made of do. -/
def Plan.Sound (c : Contract) {α : Type} (Q : α → Machine → Prop) : Plan α → Machine → Prop
  | .last p, m => c.Keeps m Q (p m)
  | .step p next, m => c.Keeps m (fun b m' => (next b).Sound c Q m') (p m)
  | .sub env job next, m => c.Pre job (m.place env) ∧
    ∀ b m', c.Onward m m' → c.Good m' → c.Post job b m' → (next b).Sound c Q m'
  | .tail job, m => c.Pre job m ∧ ∀ a m', c.Onward m m' → c.Good m' → c.Post job a m' → Q a m'
  | .flushing plan, m => plan.Sound c Q m ∧ ∀ a m m', m.SameHeap m' → Q a m → Q a m'

/-- The moments are all those of some runs, and the plan at each of them keeps to the contract. -/
structure Contract.Honored (c : Contract) (S : Moment → Prop) : Prop where
  closed : ∀ {μ ν}, S μ → μ.Part ν → S ν
  sound : ∀ {μ}, S μ → c.Good μ.machine → c.Pre μ.job μ.machine →
    (μ.job.plan μ.host).Sound c (c.Post μ.job) μ.machine

/-- The moment is as the contract wants it, and the run at it leads on to `last`. -/
structure Contract.Fits (c : Contract) (last : Machine) (μ : Moment) : Prop where
  good : c.Good μ.machine
  pre : c.Pre μ.job μ.machine
  onward : c.Onward (state μ.ending) last

/-! ## Runs keep to the contract -/

theorem Machine.sameHeap_place (env : Option Env) (m : Machine) : m.SameHeap (m.place env) := ⟨rfl, rfl, rfl⟩

/-- Apart from the environment, a run in another one ends as it would there. -/
theorem Eval.place_ends {α : Type} (env : Option Env) (p : Eval α) (m : Machine) :
    (∃ a m₁ m₂, p (m.place env) = .ok a m₁ ∧ place env p m = .ok a m₂ ∧ m₁.SameHeap m₂) ∨
    (∃ e m₁ m₂, p (m.place env) = .error e m₁ ∧ place env p m = .error e m₂ ∧ m₁.SameHeap m₂) := by
  cases env with
  | none =>
    cases h : p m with
    | ok a m₁ => exact .inl ⟨a, m₁, m₁, h, h, .refl m₁⟩
    | error e m₁ => exact .inr ⟨e, m₁, m₁, h, h, .refl m₁⟩
  | some env =>
    unfold place inEnv
    dsimp only
    cases h : p { m with env := env } with
    | ok a m₁ => exact .inl ⟨a, m₁, _, h, rfl, ⟨rfl, rfl, rfl⟩⟩
    | error e m₁ => exact .inr ⟨e, m₁, _, h, rfl, ⟨rfl, rfl, rfl⟩⟩

theorem Eval.flush_ends (m : Machine) :
    ∃ m', m.SameHeap m' ∧ (flush m = .ok () m' ∨ ∃ e, flush m = .error e m') := by
  unfold flush
  cases m.output.flush with
  | mk refused sink =>
    cases refused with
    | none => exact ⟨{ m with output := sink }, ⟨rfl, rfl, rfl⟩, .inl rfl⟩
    | some reason => exact ⟨{ m with output := sink }, ⟨rfl, rfl, rfl⟩, .inr ⟨_, rfl⟩⟩

/-- A flush changes no value, and can only turn an ending into an error. -/
theorem Eval.flushing_ends {α : Type} (p : Eval α) (m : Machine) :
    (state (p m)).SameHeap (state (flushing p m)) ∧
      ∀ a m', flushing p m = .ok a m' → ∃ m₁, p m = .ok a m₁ ∧ m₁.SameHeap m' := by
  unfold flushing
  cases hp : p m with
  | ok a m₁ =>
    dsimp only
    obtain ⟨m₂, hsame, hok | ⟨e, herr⟩⟩ := flush_ends m₁
    · rw [bind_ok hok]
      refine ⟨hsame, ?_⟩
      rintro _ _ ⟨⟩
      exact ⟨m₁, rfl, hsame⟩
    · rw [bind_error herr]
      exact ⟨hsame, nofun⟩
  | error e m₁ =>
    cases e with
    | exhausted => exact ⟨.refl m₁, nofun⟩
    | failed e =>
      dsimp only
      obtain ⟨m₂, hsame, hok | ⟨e, herr⟩⟩ := flush_ends m₁
      · rw [bind_ok hok]
        exact ⟨hsame, nofun⟩
      · rw [bind_error herr]
        exact ⟨hsame, nofun⟩

section plans

variable {c : Contract} {host : Host} {n : Nat} {α : Type}

/-- What is known of the runs that a plan is made of. -/
def Plan.PartsKeep (c : Contract) (host : Host) (n : Nat) (plan : Plan α) (m : Machine) : Prop :=
  ∀ ν, plan.Runs host n ν m → c.Good ν.machine → c.Pre ν.job ν.machine →
    c.Keeps ν.machine (c.Post ν.job) ν.ending

/-- A run within a plan, and the machine that the plan goes on from. -/
theorem Plan.Sound.sub_ends {β : Type} {Q : α → Machine → Prop} {env : Option Env} {job : Job β}
    {next : β → Plan α} {m : Machine} (h : (Plan.sub env job next).Sound c Q m) (hm : c.Good m)
    (hparts : (Plan.sub env job next).PartsKeep c host n m) :
    c.Keeps (m.place env) (c.Post job) (job.run host n (m.place env)) ∧
    c.Onward (state (job.run host n (m.place env))) (state (place env (job.run host n) m)) ∧
    c.Keeps m (fun b m' => (next b).Sound c Q m') (place env (job.run host n) m) := by
  have hplace := m.sameHeap_place env
  have hjob := hparts ⟨host, job, n, m.place env⟩ (.inl rfl) (c.good_same hplace hm) h.1
  refine ⟨hjob, ?_⟩
  have hstart : c.Onward m (state (job.run host n (m.place env))) := c.trans (c.onward_same hplace) hjob.onward
  rcases place_ends env (job.run host n) m with ⟨b, m₁, m₂, hrun, heq, hsame⟩ | ⟨e, m₁, m₂, hrun, heq, hsame⟩
  · have hpost := hjob.value hrun
    have hgood := hjob.good
    change c.Good (state (job.run host n (m.place env))) at hgood
    rw [hrun] at hstart hgood ⊢
    rw [heq]
    have ho := c.trans hstart (c.onward_same hsame)
    have hg := c.good_same hsame hgood
    exact ⟨c.onward_same hsame, .ok ho hg (h.2 b m₂ ho hg (c.post_same hsame hpost))⟩
  · have hgood := hjob.good
    change c.Good (state (job.run host n (m.place env))) at hgood
    rw [hrun] at hstart hgood ⊢
    rw [heq]
    exact ⟨c.onward_same hsame, .error (c.trans hstart (c.onward_same hsame)) (c.good_same hsame hgood)⟩

theorem Plan.Sound.keeps {Q : α → Machine → Prop} {plan : Plan α} {m : Machine} (h : plan.Sound c Q m)
    (hm : c.Good m) (hparts : plan.PartsKeep c host n m) : c.Keeps m Q (plan.run host n m) := by
  induction plan generalizing m with
  | last p => exact h
  | step p next ih => exact .bind h fun b m' hp _ hg hb => ih b hb hg fun ν hν => hparts ν ⟨b, m', hp, hν⟩
  | sub env job next ih =>
    obtain ⟨-, -, hsub⟩ := h.sub_ends hm hparts
    exact .bind hsub fun b m' hp _ hg hb => ih b hb hg fun ν hν => hparts ν (.inr ⟨b, m', hp, hν⟩)
  | tail job => exact (hparts ⟨host, job, n, m⟩ rfl hm h.1).imp h.2
  | flushing plan ih =>
    have hplan := ih h.1 hm hparts
    obtain ⟨hsame, hok⟩ := flushing_ends (plan.run host n) m
    refine ⟨c.trans hplan.onward (c.onward_same hsame), c.good_same hsame hplan.good, fun {a m'} heq => ?_⟩
    obtain ⟨m₁, hm₁, hsame'⟩ := hok a m' heq
    exact h.2 a m₁ m' hsame' (hplan.value hm₁)

/-- The runs that a plan is made of are in its host and a step less deep. -/
theorem Plan.of_runs {plan : Plan α} {ν : Moment} {m : Machine} (h : plan.Runs host n ν m) :
    ν.host = host ∧ ν.depth = n := by
  induction plan generalizing m with
  | last p => cases h
  | step p next ih =>
    obtain ⟨b, m', -, h⟩ := h
    exact ih b h
  | sub env job next ih =>
    rcases h with rfl | ⟨b, m', -, h⟩
    · exact ⟨rfl, rfl⟩
    · exact ih b h
  | tail job =>
    cases h
    exact ⟨rfl, rfl⟩
  | flushing plan ih => exact ih h

/-- What the plan comes to is as the contract wants it, and from there the plan goes on to its end. -/
theorem Plan.Sound.fits {Q : α → Machine → Prop} {plan : Plan α} {m last : Machine} {ν : Moment}
    (h : plan.Sound c Q m) (hm : c.Good m) (hparts : plan.PartsKeep c host n m)
    (hlast : c.Onward (state (plan.run host n m)) last) (hν : plan.Runs host n ν m) : c.Fits last ν := by
  induction plan generalizing m with
  | last p => cases hν
  | step p next ih =>
    obtain ⟨b, m', hp, hν⟩ := hν
    change c.Keeps m _ (p m) at h
    change c.Onward (state ((p >>= fun b => (next b).run host n) m)) last at hlast
    rw [bind_ok hp] at hlast
    rw [hp] at h
    exact ih b (h.value rfl) h.good (fun ν hν => hparts ν ⟨b, m', hp, hν⟩) hlast hν
  | sub env job next ih =>
    obtain ⟨-, hon, hsub⟩ := h.sub_ends hm hparts
    change c.Onward (state ((place env (job.run host n) >>= fun b => (next b).run host n) m)) last at hlast
    have hrest : ∀ {b m'}, place env (job.run host n) m = .ok b m' → (next b).PartsKeep c host n m' :=
      fun hp ν hν => hparts ν (.inr ⟨_, _, hp, hν⟩)
    rcases hν with rfl | ⟨b, m', hp, hν⟩
    · refine ⟨c.good_same (m.sameHeap_place env) hm, h.1, c.trans hon ?_⟩
      cases hp : place env (job.run host n) m with
      | ok b m' =>
        rw [bind_ok hp] at hlast
        rw [hp] at hsub
        exact c.trans ((hsub.value rfl).keeps hsub.good (hrest hp)).onward hlast
      | error e m' =>
        rw [bind_error hp] at hlast
        exact hlast
    · rw [bind_ok hp] at hlast
      rw [hp] at hsub
      exact ih b (hsub.value rfl) hsub.good (hrest hp) hlast hν
  | tail job =>
    cases hν
    exact ⟨hm, h.1, hlast⟩
  | flushing plan ih =>
    have hsame := (flushing_ends (plan.run host n) m).1
    exact ih h.1 hm hparts (c.trans (c.onward_same hsame) hlast) hν

end plans

/-- Binding a method takes no depth, and all else takes some. -/
theorem Job.run_zero (host : Host) {α : Type} (job : Job α) :
    job.run host 0 = throw .exhausted ∨ ∃ p, job.plan host = .last p ∧ job.run host 0 = p := by
  cases job with
  | bind receiver method => exact .inr ⟨_, rfl, rfl⟩
  | _ => exact .inl rfl

namespace Contract

variable {c : Contract} {S : Moment → Prop}

/-- A run in which everything keeps to the contract keeps to it. -/
theorem Honored.keeps (h : c.Honored S) {μ : Moment} (hμ : S μ) (hg : c.Good μ.machine)
    (hp : c.Pre μ.job μ.machine) : c.Keeps μ.machine (c.Post μ.job) μ.ending := by
  have hsound := h.sound hμ hg hp
  induction hn : μ.depth generalizing μ with
  | zero =>
    rw [Moment.ending, hn]
    rcases μ.job.run_zero μ.host with hrun | ⟨p, hplan, hrun⟩
    · rw [hrun]
      exact .error (c.onward_same (.refl _)) hg
    · rw [hrun]
      rwa [hplan] at hsound
  | succ n ih =>
    rw [Moment.ending, hn, μ.job.run_succ]
    refine hsound.keeps hg fun ν hν hg' hp' => ?_
    have hin : S ν := h.closed hμ ⟨n, hn, hν⟩
    exact ih hin hg' hp' (h.sound hin hg' hp') (Plan.of_runs hν).2

theorem Honored.fits_part (h : c.Honored S) {last : Machine} {μ ν : Moment} (hμ : S μ)
    (hf : c.Fits last μ) (hpart : μ.Part ν) : c.Fits last ν := by
  obtain ⟨n, hn, hν⟩ := hpart
  refine (h.sound hμ hf.good hf.pre).fits hf.good (fun ν hν hg hp => ?_) ?_ hν
  · exact h.keeps (h.closed hμ ⟨n, hn, hν⟩) hg hp
  · have honward := hf.onward
    rwa [Moment.ending, hn, μ.job.run_succ] at honward

/-- All moments within a run are as the contract wants them. -/
theorem Honored.fits_within (h : c.Honored S) {last : Machine} {μ ν : Moment} (hμ : S μ)
    (hf : c.Fits last μ) (hw : μ.Within ν) : S ν ∧ c.Fits last ν := by
  induction hw with
  | refl => exact ⟨hμ, hf⟩
  | tail _ hpart ih => exact ⟨h.closed ih.1 hpart, h.fits_part ih.1 ih.2 hpart⟩

end Contract
end Lox
