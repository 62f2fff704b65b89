import Lox.Proofs.Lockstep
import Lox.Proofs.Match.Sessions

/-!
# Identities of all the texts of a session

A machine reads one text after another: the lines of a session, and the scripts that they ask for. It
hands out identities in order, also to texts that it refuses, so no two trees have one in common, and
what the analysis of a text puts on record is never about a tree that was read before.

Nothing else touches the record: a session ends with the record that reading its texts in order, and
nothing else, would have left.
-/

namespace Lox
open Ending

/-- The tree that a text is read into, also if the text is then refused. Where the grammar is at
fault there is none. -/
def Stmt.treeOf (source : String) (nextId : Nat) : List Stmt :=
  match (Stmt.parse (Item.tokens (Token.scan source)) nextId).1 with
  | .ok program => program
  | .error _ => []

namespace Machine

/-- The machine after it has read these texts, whether or not they pass. -/
def compileAll (m : Machine) : List String → Machine
  | [] => m
  | source :: rest => (m.compile source).2.compileAll rest

/-- The trees of these texts. -/
def trees (m : Machine) : List String → List (List Stmt)
  | [] => []
  | source :: rest => Stmt.treeOf source m.nextNode :: (m.compile source).2.trees rest

theorem compileAll_append (m : Machine) (xs ys : List String) :
    m.compileAll (xs ++ ys) = (m.compileAll xs).compileAll ys := by
  induction xs generalizing m with
  | nil => rfl
  | cons source rest ih => exact ih _

/-! ## Identities -/

theorem compile_nextNode (m : Machine) (source : String) : (m.compile source).2.nextNode =
    (Stmt.parse (Item.tokens (Token.scan source)) m.nextNode).2 := by
  have hread : (Stmt.read source m.nextNode).2 =
      (Stmt.parse (Item.tokens (Token.scan source)) m.nextNode).2 := by
    unfold Stmt.read
    dsimp only
    split <;> next hparse => rw [hparse]
  rw [← hread]
  unfold Machine.compile Machine.analyse
  split
  · next hr => rw [hr]
  · next hr =>
    rw [hr]
    dsimp only
    split <;> next h => injection h with _ h; injection h with _ h; subst h; rfl

/-- The identities of a tree are among those that its text has used up. -/
theorem fresh_treeOf (m : Machine) (source : String) :
    Fresh m.nextNode (m.compile source).2.nextNode
      (Stmt.nodesAll (Stmt.treeOf source m.nextNode)) := by
  rw [compile_nextNode]
  unfold Stmt.treeOf
  split
  case h_1 program hparse => exact (Stmt.parse_sound hparse).2
  case h_2 => exact .nil _ _

theorem nextNode_le_compileAll (m : Machine) (sources : List String) :
    m.nextNode ≤ (m.compileAll sources).nextNode := by
  induction sources generalizing m with
  | nil => exact Nat.le_refl _
  | cons source rest ih => exact Nat.le_trans (Trace.compiled m source).nextNode (ih _)

theorem fresh_trees (m : Machine) (sources : List String) :
    Fresh m.nextNode (m.compileAll sources).nextNode
      ((m.trees sources).flatMap Stmt.nodesAll) := by
  induction sources generalizing m with
  | nil => exact .nil _ _
  | cons source rest ih =>
    exact (fresh_treeOf m source).append (ih _) (Trace.compiled m source).nextNode
      (nextNode_le_compileAll _ rest)

/-! ## Distances on record -/

/-- Nothing is on record about identities that are still to be handed out. -/
def Ahead (m : Machine) : Prop := ∀ i, m.nextNode ≤ i → m.distances[i]? = none

theorem Ahead.compile {m : Machine} (h : m.Ahead) (source : String) : (m.compile source).2.Ahead := by
  intro i hi
  have hc := Trace.compiled m source
  rw [hc.distances (.inr hi)]
  exact h i (Nat.le_trans hc.nextNode hi)

theorem Ahead.compileAll {m : Machine} (h : m.Ahead) (sources : List String) :
    (m.compileAll sources).Ahead := by
  induction sources generalizing m with
  | nil => exact h
  | cons source rest ih => exact ih (h.compile source)

theorem distances_compileAll (m : Machine) (sources : List String) {i : Nat} (hi : i < m.nextNode) :
    (m.compileAll sources).distances[i]? = m.distances[i]? := by
  induction sources generalizing m with
  | nil => rfl
  | cons source rest ih =>
    have hc := Trace.compiled m source
    exact (ih _ (Nat.lt_of_lt_of_le hi hc.nextNode)).trans (hc.distances (.inl hi))

theorem Ahead.recorded {m : Machine} (h : m.Ahead) (source : String) {i d : Nat}
    (hd : m.distances[i]? = some d) : (m.compile source).2.distances[i]? = some d := by
  have hi : i < m.nextNode := by
    by_contra hle
    rw [h i (Nat.not_lt.1 hle)] at hd
    cases hd
  rw [(Trace.compiled m source).distances (.inl hi)]
  exact hd

/-- The identities in the trees of these texts, which were read one after the other, are never the same, and
what was put on record for one text stays, to the machine `last`. -/
structure KeepsApart (m : Machine) (sources : List String) (last : Machine) : Prop where
  nodup : ((m.trees sources).flatMap Stmt.nodesAll).Nodup
  recorded {earlier later : List String} {source : String} :
    sources = earlier ++ source :: later →
    ∀ i d : Nat, (m.compileAll earlier).distances[i]? = some d →
      ((m.compileAll earlier).compile source).2.distances[i]? = some d
  bound {earlier later : List String} {source : String} :
    sources = earlier ++ source :: later →
    ∀ i ∈ Stmt.nodesAll (Stmt.treeOf source (m.compileAll earlier).nextNode),
      last.distances[i]? = ((m.compileAll earlier).compile source).2.distances[i]?

theorem Ahead.keepsApart {m : Machine} (h : m.Ahead) (sources : List String) :
    m.KeepsApart sources (m.compileAll sources) where
  nodup := (fresh_trees m sources).nodup
  recorded {earlier _ source} _ _ _ hd := (h.compileAll earlier).recorded source hd
  bound {earlier later source} hsources i hi := by
    subst hsources
    rw [compileAll_append]
    exact distances_compileAll _ later ((fresh_treeOf _ source).lt_high i hi)

/-! ## What else happens to the record -/

/-- The same identities were handed out and the same distances are on record. -/
structure SameRecord (m m' : Machine) : Prop where
  nextNode : m'.nextNode = m.nextNode
  distances : m'.distances = m.distances

/-- What becomes of a text depends on the record only. -/
theorem SameRecord.compile {m m' : Machine} (h : m.SameRecord m') (source : String) :
    (m'.compile source).1 = (m.compile source).1 ∧
      (m.compile source).2.SameRecord (m'.compile source).2 := by
  unfold Machine.compile Machine.analyse
  rw [h.nextNode, h.distances]
  split
  · exact ⟨rfl, rfl, rfl⟩
  · next program _ _ =>
    cases he : (Stmt.analyse program m.distances).errors with
    | nil =>
      simp only [he]
      exact ⟨trivial, rfl, rfl⟩
    | cons e rest =>
      simp only [he]
      exact ⟨trivial, rfl, rfl⟩

/-- Where the record is the same, a text comes to the same, and leaves the rest of the machine alone. -/
theorem SameRecord.compile_eq {m m' : Machine} (h : m.SameRecord m') (source : String) :
    m'.compile source = ((m.compile source).1, { m' with
      nextNode := (m.compile source).2.nextNode, distances := (m.compile source).2.distances }) := by
  obtain ⟨hresult, hnext, hdistances⟩ := h.compile source
  rw [← hresult, ← hnext, ← hdistances, ← m'.compile_snd source]

theorem compile_requested (m : Machine) (paths : List String) (source : String) :
    { m with requested := paths }.compile source =
      ((m.compile source).1, { (m.compile source).2 with requested := paths }) := by
  have h : m.SameRecord { m with requested := paths } := ⟨rfl, rfl⟩
  rw [h.compile_eq source, m.compile_snd source]

theorem SameRecord.compileAll {m m' : Machine} (h : m.SameRecord m') (sources : List String) :
    (m.compileAll sources).SameRecord (m'.compileAll sources) := by
  induction sources generalizing m m' with
  | nil => exact h
  | cons source rest ih => exact ih (h.compile source).2

end Machine

/-- The text of a script, if it can be read. -/
def Host.text? (host : Host) (path : String) : Option String := (host.read path).toOption

/-- From `m` to `m'` these scripts were asked for, and those that could be read are all that was read. -/
def Machine.Asked (host : Host) (paths : List String) (m m' : Machine) : Prop :=
  m'.requested = m.requested ++ paths ∧
    (m.compileAll (paths.filterMap host.text?)).SameRecord m'

namespace Machine.Asked

variable {host : Host} {m m₁ : Machine}

theorem same {paths : List String} {m₂ : Machine} (h : Asked host paths m m₁)
    (hr : m₂.requested = m₁.requested) (hs : m₁.SameRecord m₂) : Asked host paths m m₂ :=
  ⟨hr.trans h.1, hs.nextNode.trans h.2.nextNode, hs.distances.trans h.2.distances⟩

/-- Fetching a script adds its path, and its text if it has one. -/
theorem fetch {paths : List String} (h : Asked host paths m m₁) (path : String) :
    Asked host (paths ++ [path]) m (state (Eval.fetch host path m₁)) := by
  obtain ⟨hrequested, hrecord⟩ := h
  have hrequest : Eval.request path m₁ =
    .ok () { m₁ with requested := m₁.requested ++ [path] } := rfl
  rw [Eval.fetch, bind_ok hrequest]
  unfold Eval.readScript
  cases hread : host.read path with
  | error fault =>
    have htext : host.text? path = none := by rw [Host.text?, hread]; rfl
    refine ⟨by rw [state_error, hrequested, List.append_assoc], ?_⟩
    rw [List.filterMap_append, List.filterMap_cons_none htext, List.filterMap_nil, List.append_nil]
    exact ⟨hrecord.nextNode, hrecord.distances⟩
  | ok source =>
    have htext : host.text? path = some source := by rw [Host.text?, hread]; rfl
    have hafter := (hrecord.compile source).2
    have hasked : Asked host (paths ++ [path]) m
        { (m₁.compile source).2 with requested := m₁.requested ++ [path] } := by
      refine ⟨by rw [hrequested, List.append_assoc], ?_⟩
      rw [List.filterMap_append, List.filterMap_cons_some htext, List.filterMap_nil, compileAll_append]
      exact ⟨hafter.nextNode, hafter.distances⟩
    dsimp only
    rw [m₁.compile_requested]
    generalize m₁.compile source = r at hasked ⊢
    obtain ⟨result, m₂⟩ := r
    cases result with
    | error es => exact hasked
    | ok accepted => exact hasked.same rfl ⟨rfl, rfl⟩

end Machine.Asked

theorem EndsAlike.self {α : Type} {P : Machine → Prop} {r : EStateM.Result Stop Machine α}
    (h : P (state r)) : EndsAlike (fun m m' => m' = m ∧ P m) r r := by
  cases r with
  | ok a m => exact .ok a ⟨rfl, h⟩
  | error e m => exact .error e ⟨rfl, h⟩

/-- A property of the record, of what was asked for and of what waits that fetching a script keeps holds
after every run. -/
theorem Lockstep.of_invariant {host : Host} (hl : ∀ load, host.loader ≠ .custom load)
    {P : Machine → Prop}
    (hsame : ∀ {m m'}, P m → m'.requested = m.requested → m'.warnings = m.warnings →
      m.SameRecord m' → P m')
    (hfetch : ∀ path m, P m → P (state (Eval.fetch host path m))) :
    Lockstep host fun m m' => m' = m ∧ P m where
  agrees := by
    rintro _ m ⟨rfl, -⟩
    exact ⟨rfl, rfl, rfl, rfl, rfl, rfl, rfl⟩
  frames _ h := ⟨by rw [h.1], hsame h.2 rfl rfl ⟨rfl, rfl⟩⟩
  objects _ h := ⟨by rw [h.1], hsame h.2 rfl rfl ⟨rfl, rfl⟩⟩
  nextRef _ h := ⟨by rw [h.1], hsame h.2 rfl rfl ⟨rfl, rfl⟩⟩
  env _ h := ⟨by rw [h.1], hsame h.2 rfl rfl ⟨rfl, rfl⟩⟩
  output _ h := ⟨by rw [h.1], hsame h.2 rfl rfl ⟨rfl, rfl⟩⟩
  ticks _ h := ⟨by rw [h.1], hsame h.2 rfl rfl ⟨rfl, rfl⟩⟩
  native h _ _ _ := by rw [h.1]
  fetch path := by
    rintro _ m ⟨rfl, h⟩
    exact EndsAlike.self (hfetch path m h)
  loader := hl

/-- All that a program does to the record is to read the scripts that it asks for. -/
theorem asked_interpret {host : Host} (hl : ∀ load, host.loader ≠ .custom load) (fuel : Nat)
    (program : List Stmt) (m : Machine) :
    ∃ paths, Machine.Asked host paths m (state (interpret host fuel program m)) := by
  have hlock : Lockstep host fun m₁ m₁' => m₁' = m₁ ∧ ∃ paths, Machine.Asked host paths m m₁ := by
    refine .of_invariant hl (fun ⟨paths, h⟩ hr _ hs => ⟨paths, h.same hr hs⟩) fun path m₁ h => ?_
    obtain ⟨paths, h⟩ := h
    exact ⟨_, h.fetch path⟩
  have hstart : Machine.Asked host [] m m := ⟨(List.append_nil _).symm, rfl, rfl⟩
  have hend := (runsInStep hlock fuel).interpret program m m ⟨rfl, [], hstart⟩
  generalize interpret host fuel program m = r at hend ⊢
  cases hend with
  | ok _ h => exact h.2
  | error _ h => exact h.2

namespace Session

/-- All that a line does to the record is to be read, and then to have the scripts read that it asks for. -/
theorem asked_run {host : Host} (hl : ∀ load, host.loader ≠ .custom load) {fuel : Nat}
    {source : String} {s t : Session} {o : Outcome} (h : s.run host fuel source = some (o, t)) :
    ∃ paths, t.machine.requested = s.machine.requested ++ paths ∧
      (s.machine.compileAll (source :: paths.filterMap host.text?)).SameRecord t.machine := by
  have hkept := s.machine.compile_snd source
  -- what is asked for after the line itself has been read
  have hafter : ∀ {paths : List String} {m : Machine},
      Machine.Asked host paths (s.machine.compile source).2 m → t.machine.requested = m.requested →
      m.SameRecord t.machine → t.machine.requested = s.machine.requested ++ paths ∧
        (s.machine.compileAll (source :: paths.filterMap host.text?)).SameRecord t.machine := by
    intro paths m hasked hr hs
    have hrequested : (s.machine.compile source).2.requested = s.machine.requested := by rw [hkept]
    rw [← hrequested]
    exact hasked.same hr hs
  have hended : ∀ {program : List Stmt} {m : Machine}, t.machine = { m with warnings := [] } →
      state (interpret host fuel program (s.machine.compile source).2) = m →
      ∃ paths, t.machine.requested = s.machine.requested ++ paths ∧
        (s.machine.compileAll (source :: paths.filterMap host.text?)).SameRecord t.machine := by
    intro program m ht hm
    obtain ⟨paths, hasked⟩ := asked_interpret hl fuel program (s.machine.compile source).2
    rw [hm] at hasked
    exact ⟨paths, hafter hasked (by rw [ht]) (by rw [ht]; exact ⟨rfl, rfl⟩)⟩
  cases runEnds_of_run h with
  | refused hc _ =>
    have hm : (s.machine.compile source).2 = t.machine := by rw [hc]
    have hnone : Machine.Asked host [] (s.machine.compile source).2 t.machine := by
      rw [hm]
      exact ⟨(List.append_nil _).symm, rfl, rfl⟩
    exact ⟨[], hafter hnone rfl ⟨rfl, rfl⟩⟩
  | ok hc hi _ ht => exact hended ht (by rw [hc, hi]; rfl)
  | failed hc hi _ ht => exact hended ht (by rw [hc, hi]; rfl)

/-- The texts that are read while these lines run, in order: each line, and the scripts that it asks for. -/
def textsRead : List Line → Session → List String
  | [], _ => []
  | line :: rest, s =>
    match s.run line.host line.fuel line.source with
    | none => []
    | some (_, t) =>
      let paths := t.machine.requested.drop s.machine.requested.length
      line.source :: paths.filterMap line.host.text? ++ textsRead rest t

theorem sameRecord_runAll {lines : List Line} (hl : ∀ line ∈ lines, ∀ load, line.host.loader ≠ .custom load)
    {s t : Session} (h : s.runAll lines = some t) :
    (s.machine.compileAll (s.textsRead lines)).SameRecord t.machine := by
  induction lines generalizing s with
  | nil =>
    cases h
    exact ⟨rfl, rfl⟩
  | cons line rest ih =>
    obtain ⟨hline, hrest⟩ := List.forall_mem_cons.1 hl
    unfold runAll at h
    unfold textsRead
    cases hrun : s.run line.host line.fuel line.source with
    | none =>
      rw [hrun] at h
      cases h
    | some r =>
      obtain ⟨o, s₁⟩ := r
      rw [hrun] at h
      obtain ⟨paths, hrequested, hrecord⟩ := asked_run hline hrun
      have hlater := ih hrest h
      have hfirst := hrecord.compileAll (s₁.textsRead rest)
      dsimp only
      rw [hrequested, List.drop_left, Machine.compileAll_append]
      exact ⟨hlater.nextNode.trans hfirst.nextNode, hlater.distances.trans hfirst.distances⟩

/-- However many texts a machine reads, refused or not, their trees have no identity in common, and none
of them touches what is on record for another. The texts of a session and of the scripts that it runs
are read so, and the session itself leaves their record alone. -/
theorem identities_apart (host : Host) (output diagnostics : Sink) :
    (∀ sources, (Machine.start host output).KeepsApart sources
      ((Machine.start host output).compileAll sources)) ∧
    ∀ lines : List Line, (∀ line ∈ lines, ∀ load, line.host.loader ≠ .custom load) →
      ∀ s, (Session.start host output diagnostics).runAll lines = some s →
        (Machine.start host output).KeepsApart
          ((Session.start host output diagnostics).textsRead lines) s.machine := by
  have hahead : (Machine.start host output).Ahead := fun _ _ => Std.TreeMap.getElem?_emptyc
  refine ⟨fun sources => hahead.keepsApart sources, fun lines hl s h => ?_⟩
  have hrecord := sameRecord_runAll hl h
  have hapart := hahead.keepsApart ((Session.start host output diagnostics).textsRead lines)
  refine ⟨hapart.nodup, hapart.recorded, fun hsources i hi => ?_⟩
  rw [← hapart.bound hsources i hi]
  exact congrArg (·[i]?) hrecord.distances

/-- One script, whose text is given. -/
def oneScript (text : String) : Host where
  loader := .files
  read path := if path = "m" then .ok text else .error .notFound

/-- The same name in two lines and in the script that both run, which is another one at the second time. -/
def sameNameLines : List Line :=
  [⟨oneScript "\x7b var a; a = nil; \x7d", 16, "\x7b var a; execute \"m\"; a; \x7d"⟩,
   ⟨oneScript "\x7b var a; a; \x7d", 16, "\x7b var a; execute \"m\"; a; \x7d"⟩]

set_option maxRecDepth 20000 in
theorem runAll_sameNameLines : ((Session.start {} {} {}).runAll sameNameLines).isSome = true := by
  cbv

set_option maxRecDepth 20000 in
/-- An assignment uses up two identities, of which its tree has the second. -/
theorem nodes_sameNameLines :
    ((Machine.start {} {}).trees ((Session.start {} {} {}).textsRead sameNameLines)).map Stmt.nodesAll =
      [[0], [2], [3], [4]] := by
  cbv

theorem identities_apart_sameNameLines :
    (∀ line ∈ sameNameLines, ∀ load, line.host.loader ≠ .custom load) ∧
    ∃ s, (Session.start {} {} {}).runAll sameNameLines = some s ∧
      (Machine.start {} {}).KeepsApart ((Session.start {} {} {}).textsRead sameNameLines) s.machine ∧
      ((Machine.start {} {}).trees ((Session.start {} {} {}).textsRead sameNameLines)).map Stmt.nodesAll =
        [[0], [2], [3], [4]] := by
  have hl : ∀ line ∈ sameNameLines, ∀ load, line.host.loader ≠ .custom load := by
    simp [sameNameLines, oneScript]
  obtain ⟨s, hs⟩ := Option.isSome_iff_exists.1 runAll_sameNameLines
  exact ⟨hl, s, hs, (identities_apart {} {} {}).2 _ hl s hs, nodes_sameNameLines⟩

end Session
end Lox
