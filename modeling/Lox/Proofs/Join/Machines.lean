import Lox.Proofs.Effects
import Lox.Proofs.Join.Scoping
import Lox.Proofs.Match.Runs
import Lox.Proofs.Scope.Steps

/-!
# Machines that admit programs side by side

A program that is read on one of two matched machines goes with one that was read on the other, some lines further
down. The pairing of the machines is extended by the identities of the two programs, place by place. What
is on the machines stays matched, since it mentions only identities that were handed out before.
-/

namespace Lox

/-! ## Values on good machines -/

theorem forall₂_imp_mem {α β : Type} {R S : α → β → Prop} {xs : List α} {ys : List β}
    (h : List.Forall₂ R xs ys) (hi : ∀ x ∈ xs, ∀ y, R x y → S x y) : List.Forall₂ S xs ys := by
  induction h with
  | nil => exact .nil
  | cons hr _ ih =>
    obtain ⟨hx, hxs⟩ := List.forall_mem_cons.1 hi
    exact .cons (hx _ hr) (ih hxs)

theorem optionRel_imp_mem {α β : Type} {R S : α → β → Prop} {o : Option α} {o' : Option β}
    (h : Option.Rel R o o') (hi : ∀ x, o = some x → ∀ y, R x y → S x y) : Option.Rel S o o' := by
  cases h with
  | none => exact .none
  | some hr => exact .some (hi _ rfl _ hr)

namespace Trace

variable {s : State} {ρ σ : Matching} (hg : Good s) (hl : ∀ k l, ρ.line k l → σ.line k l)
  (hn : ∀ i j, i < s.machine.nextNode → ρ.node i j → σ.node i j)
include hg hl hn

/-- Of a routine that was read before, only identities handed out before count. -/
theorem retarget_of_known {r r' : Routine} (h : r.Matched ρ r') {ctx : Scoping.Context}
    {sites : List Scoping.Site} {a : Scoping.Analysis}
    (hv : ∀ v ∈ r.visits ctx sites a, Known s.log v) : r.Matched σ r' := by
  refine h.retarget hl (forall₂_imp_mem h.nodes fun i hi j hij => hn i j ?_ hij)
  have hmem := (Routine.ids_visits ctx sites r a).mem_iff.2 hi
  obtain ⟨v, hv', rfl⟩ := List.mem_map.1 hmem
  exact (hv v hv').lt_nextNode hg

theorem SoundClass.retarget {c c' : Class} (hc : SoundClass s c) (h : c.Matched ρ c') :
    c.Matched σ c' := by
  refine ⟨h.id, h.name, fun name => optionRel_imp_mem (h.methods name) fun f hf f' hff => ?_⟩
  obtain ⟨-, ctx, sites, a, o, os, -, -, -, -, hv⟩ := hc name f hf
  exact ⟨retarget_of_known hg hl hn hff.decl hv, hff.env, hff.isInitializer⟩

theorem Sound.retarget {v v' : Value} (hv : Sound s v) (h : v.Matched ρ v') : v.Matched σ v' := by
  cases h with
  | nil => exact .nil
  | bool b => exact .bool b
  | number x => exact .number x
  | string t => exact .string t
  | native f => exact .native f
  | function id hf =>
    obtain ⟨-, ctx, sites, a, -, -, hvisits⟩ := hv
    exact .function id ⟨retarget_of_known hg hl hn hf.decl hvisits, hf.env, hf.isInitializer⟩
  | classDef hc => exact .classDef (SoundClass.retarget hg hl hn hv hc)
  | object id hc => exact .object id (SoundClass.retarget hg hl hn hv hc)

end Trace

/-! ## Pairings of machines that admit programs -/

/-- Identities that go together were handed out on both machines, or on neither. -/
theorem Pairing.node_lt_iff {π : Pairing} {i j n n' : Nat} (hn : π.InStep n n')
    (h : π.matching.node i j) : i < n ↔ j < n' := by
  obtain ⟨k, rfl, rfl⟩ := hn
  rcases h with h | ⟨k', rfl, rfl⟩
  · have := π.base_lt h
    omega
  · omega

/-- Of two matched machines, one with `n` and `d` as next identity and distances admits `p`, and the other, with
`n'` and `d'`, admits `q`. -/
structure Admits (π : Pairing) (m m' : Machine) (p q : List Stmt) (n n' : Nat) (d d' : Distances) :
    Prop where
  next : m.nextNode ≤ n
  next' : m'.nextNode ≤ n'
  ids : Fresh m.nextNode n (Stmt.nodesAll p)
  nodup : (Stmt.nodesAll q).Nodup
  lt_next {j : Nat} : j ∈ Stmt.nodesAll q → j < n'
  /-- What is on the machine mentions nothing of the program. -/
  apart {i j : Nat} : π.matching.node i j → i < m.nextNode → j ∉ Stmt.nodesAll q
  kept {i : Nat} : i < m.nextNode → d[i]? = m.distances[i]?
  kept' {j : Nat} : j < m'.nextNode → d'[j]? = m'.distances[j]?
  inPlace {i j : Nat} : (i, j) ∈ (Stmt.nodesAll p).zip (Stmt.nodesAll q) → d'[j]? = d[i]?
  fresh {i : Nat} : n ≤ i → d[i]? = none
  fresh' {j : Nat} : n' ≤ j → d'[j]? = none

/-- The same error, or the same `c` lines further down. -/
def Error.Lowered (c : Nat) (e e' : Error) : Prop := e' = e ∨ e' = e.shift c

namespace Admits

variable {π : Pairing} {m m' : Machine} {p q : List Stmt} {n n' : Nat} {d d' : Distances}
  (h : Admits π m m' p q n n' d d') (hm : m.Matched π m')

/-- Identities of before go together as they did, and the new ones place by place. -/
def pairing (c : Nat) : Pairing where
  base i j := (π.matching.node i j ∧ i < m.nextNode) ∨
    (i, j) ∈ (Stmt.nodesAll p).zip (Stmt.nodesAll q)
  low := n
  low' := n'
  line k l := l = k ∨ l = k + c
  error := Error.Lowered c
  older := m.warnings
  older' := m'.warnings
  base_lt := by
    rintro i j (⟨hij, hi⟩ | hij)
    · have hj := (Pairing.node_lt_iff hm.nodes hij).1 hi
      exact ⟨Nat.lt_of_lt_of_le hi h.next, Nat.lt_of_lt_of_le hj h.next'⟩
    · obtain ⟨hi, hj⟩ := List.of_mem_zip hij
      exact ⟨h.ids.lt_high i hi, h.lt_next hj⟩
  base_unique := by
    -- an identity of before is none of the new ones, on either machine
    have hmixed : ∀ {i j i' j' : Nat}, π.matching.node i j → i < m.nextNode →
        (i', j') ∈ (Stmt.nodesAll p).zip (Stmt.nodesAll q) → i ≠ i' ∧ j ≠ j' := by
      intro i j i' j' hij hi hij'
      obtain ⟨hi', hj'⟩ := List.of_mem_zip hij'
      constructor
      · have := h.ids.low_le i' hi'
        omega
      · rintro rfl
        exact h.apart hij hi hj'
    rintro i j i' j' (⟨hij, hi⟩ | hij) (⟨hij', hi'⟩ | hij')
    · exact π.node_unique hij hij'
    · have hne := hmixed hij hi hij'
      exact ⟨fun heq => absurd heq hne.1, fun heq => absurd heq hne.2⟩
    · have hne := hmixed hij' hi' hij
      exact ⟨fun heq => absurd heq.symm hne.1, fun heq => absurd heq.symm hne.2⟩
    · exact zip_unique h.ids.nodup h.nodup hij hij'
  line_refl _ := .inl rfl
  error_refl _ := .inl rfl
  error_runtime := by
    rintro k l fault (rfl | rfl)
    · exact .inl rfl
    · exact .inr rfl

/-- The two programs are matched, if they differ in identities and lines only. -/
theorem program {c k : Nat} (hk : k = 0 ∨ k = c) (hp : Stmt.MatchedAll (.lower k) p q) :
    Stmt.MatchedAll (h.pairing hm c).matching p q := by
  have hline : ∀ x y, (Matching.inPlace k p q).line x y → (h.pairing hm c).matching.line x y := by
    rintro x _ rfl
    rcases hk with rfl | rfl
    · exact .inl rfl
    · exact .inr rfl
  exact hp.inPlace.retarget hline (hp.inPlace.nodes.imp fun _ _ hij => .inl (.inr hij))

/-- Machines that admit programs side by side stay matched. -/
theorem matched {c : Nat} {log : Trace.Log} (hg : Trace.Good ⟨m, log⟩)
    (hl : ∀ k l, π.line k l → l = k ∨ l = k + c) :
    { m with nextNode := n, distances := d }.Matched (h.pairing hm c)
      { m' with nextNode := n', distances := d' } := by
  have hnode : ∀ i j, i < m.nextNode → π.matching.node i j → (h.pairing hm c).matching.node i j :=
    fun i j hi hij => .inl (.inl ⟨hij, hi⟩)
  have hvalue : ∀ {v v'}, Trace.Sound ⟨m, log⟩ v → v.Matched π.matching v' →
      v.Matched (h.pairing hm c).matching v' :=
    fun hv hmatched => hv.retarget hg hl hnode hmatched
  refine
    { size := hm.size, objects := hm.objects, nextRef := hm.nextRef, env := hm.env
      ticks := hm.ticks, requested := hm.requested, output := hm.output
      frames := fun i name => optionRel_imp_mem (hm.frames i name) fun v hv _ => hvalue (hg.frames hv)
      fields := fun id name => optionRel_imp_mem (hm.fields id name) fun v hv _ => hvalue (hg.fields hv)
      nodes := ⟨0, rfl, rfl⟩
      distances := ?_
      fresh := fun i hi => h.fresh hi
      fresh' := fun j hj => h.fresh' hj
      warnings := ⟨[], (List.append_nil _).symm, (List.append_nil _).symm⟩ }
  rintro i j ((⟨hij, hi⟩ | hij) | ⟨k, rfl, rfl⟩)
  · have hj := (Pairing.node_lt_iff hm.nodes hij).1 hi
    show d'[j]? = d[i]?
    rw [h.kept' hj, h.kept hi, hm.distances i j hij]
  · exact h.inPlace hij
  · have hleft : d[n + k]? = none := h.fresh (Nat.le_add_right _ _)
    have hright : d'[n' + k]? = none := h.fresh' (Nat.le_add_right _ _)
    exact hright.trans hleft.symm

end Admits

/-- The same identities and lines, with other warnings that waited before. -/
def Pairing.requeue (π : Pairing) (older older' : List Warning) : Pairing :=
  { π with older := older, older' := older' }

theorem Machine.Matched.requeue {π : Pairing} {m m' : Machine} (h : m.Matched π m') (env : Env)
    {o o' : Sink} (ho : o.Matched o') (ws ws' : List Warning) :
    { m with env := env, output := o, warnings := ws }.Matched (π.requeue ws ws')
      { m' with env := env, output := o', warnings := ws' } :=
  { h with
    env := rfl
    output := ho
    warnings := ⟨[], (List.append_nil _).symm, (List.append_nil _).symm⟩ }

/-! ## What runs keep -/

/-- Refuses nothing. -/
structure Sink.Works (o : Sink) : Prop where
  writes (n : Nat) : o.refusesWrite n = none
  flushes (n : Nat) : o.refusesFlush n = none

theorem Sink.Works.write {o : Sink} (h : o.Works) (s : String) : (o.write s).2.Works := by
  unfold Sink.write
  rw [h.writes]
  exact ⟨h.writes, h.flushes⟩

theorem Sink.Works.flush {o : Sink} (h : o.Works) : o.flush.2.Works := ⟨h.writes, h.flushes⟩

/-- Where nothing is refused, it does not matter how often the output was flushed. -/
theorem Sink.Matched.flushed {o o' : Sink} (h : o.Matched o') (hw : o.Works) : o.flush.2.Matched o' where
  text := h.text
  writes := h.writes
  flushes k := by
    rw [h.flushes k, hw.flushes]
    exact (hw.flushes _).symm

/-- A loader of the host's own leaves the output in order. -/
def Host.KeepsOutput (host : Host) : Prop :=
  ∀ load, host.loader = .custom load → ∀ path m, m.output.Works → (load path m).2.output.Works

/-- Distances on record stay, the environment is restored, and an output that works goes on to. -/
structure Machine.Keeps (m m' : Machine) : Prop where
  env : m'.env = m.env
  nextNode : m.nextNode ≤ m'.nextNode
  distances {i : Nat} : i < m.nextNode → m'.distances[i]? = m.distances[i]?
  output : m.output.Works → m'.output.Works

def Effects.keeping : Effects := ⟨Machine.Keeps, fun _ => True⟩

theorem Effects.keeping_allow {host : Host} (hh : host.Honest) (ho : host.KeepsOutput) :
    keeping.Allow host := by
  -- most steps touch neither the record nor the output
  have same : ∀ {m m' : Machine}, m'.env = m.env → m'.nextNode = m.nextNode →
      m'.distances = m.distances → m'.output = m.output → m.Keeps m' := by
    intro m m' he hn hd ho
    refine ⟨he, Nat.le_of_eq hn.symm, fun _ => by rw [hd], fun hw => ?_⟩
    rw [ho]
    exact hw
  exact
    { refl := fun _ => same rfl rfl rfl rfl
      trans := fun h h' =>
        ⟨h'.env.trans h.env, Nat.le_trans h.nextNode h'.nextNode,
          fun hi => (h'.distances (Nat.lt_of_lt_of_le hi h.nextNode)).trans (h.distances hi),
          fun hw => h'.output (h.output hw)⟩
      inEnv := fun _ h => ⟨rfl, h.nextNode, h.distances, h.output⟩
      define := fun _ _ _ _ => same rfl rfl rfl rfl
      add := fun _ _ => same rfl rfl rfl rfl
      setField := fun _ _ _ _ => same rfl rfl rfl rfl
      newObject := fun _ => same rfl rfl rfl rfl
      newRef := fun _ => same rfl rfl rfl rfl
      write := fun _ s => ⟨rfl, Nat.le_refl _, fun _ => rfl, fun hw => hw.write s⟩
      flush := fun _ => ⟨rfl, Nat.le_refl _, fun _ => rfl, fun hw => hw.flush⟩
      tick := fun _ => same rfl rfl rfl rfl
      request := fun _ _ => same rfl rfl rfl rfl
      compile := fun m source => by
        have hc := Trace.compiled m source
        refine ⟨hc.env, hc.nextNode, fun hi => hc.distances (.inl hi), fun hw => ?_⟩
        rw [m.compile_snd source]
        exact hw
      queue := fun _ => same rfl rfl rfl rfl
      runtime := fun _ _ => trivial
      refused := fun _ => trivial
      unreadable := fun _ _ => trivial
      script := fun _ _ _ _ _ => trivial
      loader := fun path m hl => by
        have hglobals := hh.loader _ hl path m
        refine ⟨⟨hglobals.env, Nat.le_of_eq hglobals.nextNode.symm, fun _ => ?_, ho _ hl path m⟩, fun _ _ => trivial⟩
        rw [hglobals.distances] }

/-- What statements keep that run to some end. -/
theorem executeAll_keeps {host : Host} (hh : host.Honest) (ho : host.KeepsOutput) {n : Nat}
    {ss : List Stmt} {m m' : Machine} {flow : Flow} (h : executeAll host n ss m = .ok flow m') :
    m.Keeps m' := by
  have hk := (runsBounded (Effects.keeping_allow hh ho) n).executeAll ss m
  rw [h] at hk
  exact hk

end Lox
