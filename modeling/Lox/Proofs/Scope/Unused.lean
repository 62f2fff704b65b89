import Lox.Proofs.Regular
import Lox.Proofs.Scope.Rules

/-!
# The warnings of the analysis

A local variable is a new name in a scope. The distance that is on record for an expression that reads or assigns a
variable leads to the scope of the variable that it means. The analysis warns of those local variables that no
expression means, once of each, and of nothing else. It gives the warnings by line, and whatever the order is in which
the bindings of a scope come out, they are the same.

The analysis marks what is mentioned and warns when it closes a scope. `Tally` says how far it is between two events.
-/

namespace Lox

/-- Keywords are spelt as such, and `this` and `super` are keywords. -/
def Token.Plain (t : Token) : Prop := t.Spelt ∧ (t.kind = .identifier → t.Free)

namespace Scoping

/-! ## Local variables -/

/-- A variable that is not global, by the number of its scope. -/
structure Local where
  scope : Nat
  name : String
  line : Nat
  deriving DecidableEq

/-- No two variables of a scope have the same name. -/
def Local.key (b : Local) : Nat × String := (b.scope, b.name)

def Local.warning (b : Local) : Warning := ⟨b.line, .unusedVariable b.name⟩

/-- The local variable that is new with an event. -/
def Event.local? (e : Event) : Option Local :=
  match e.act, e.within.levels with
  | .declare name, level :: _ =>
    if name.lexeme ∈ level.names then none else some ⟨level.number, name.lexeme, name.line⟩
  | _, _ => none

/-- Whether an expression is met that reads or assigns this variable, as the distances tell. -/
def Event.reaches (distances : Distances) (b : Local) (e : Event) : Bool :=
  match e.act with
  | .refer ref =>
    (ref.access = .read || ref.access = .write) && ref.name.lexeme = b.name &&
      (distances[ref.id]?.bind (e.within.levels[·]?)).any (·.number = b.scope)
  | _ => false

/-! ## How far the analysis is -/

/-- The variable that an expression means, as the scopes around it tell. -/
def Event.target? (e : Event) : Option (Nat × String) :=
  match e.act with
  | .refer ⟨.read, _, name⟩ | .refer ⟨.write, _, name⟩ =>
    (e.within.levels.find? (name.lexeme ∈ ·.names)).map fun level => (level.number, name.lexeme)
  | _ => none

/-- The line of a binding that is not marked. -/
def Scope.idleLine (scope : Scope) (name : String) : Option Nat :=
  (scope.get? name).bind fun b => if b.used then none else some b.line

theorem Scope.idleLine_insert (scope : Scope) (name other : String) (b : Binding) :
    Scope.idleLine (scope.insert name b) other =
      if name = other then if b.used then none else some b.line else Scope.idleLine scope other := by
  unfold Scope.idleLine
  rw [Table.get?_insert]
  split <;> rfl

/-- The bindings of a scope that are not marked are these variables of it. -/
structure Agrees (idle : Local → Prop) (scope : Scope) (level : Level) : Prop where
  nodup : scope.names.Nodup
  names (x : String) : x ∈ scope.names ↔ x ∈ level.names
  idle (x : String) (line : Nat) : Scope.idleLine scope x = some line ↔ idle ⟨level.number, x, line⟩

namespace Agrees

variable {idle idle' : Local → Prop} {scope : Scope} {level : Level}

theorem congr (h : Agrees idle scope level)
    (hi : ∀ x line, idle ⟨level.number, x, line⟩ ↔ idle' ⟨level.number, x, line⟩) :
    Agrees idle' scope level :=
  ⟨h.nodup, h.names, fun x line => (h.idle x line).trans (hi x line)⟩

theorem congrAll {scopes : List Scope} {levels : List Level} (h : List.Forall₂ (Agrees idle) scopes levels)
    (hi : ∀ level ∈ levels, ∀ x line,
      idle ⟨level.number, x, line⟩ ↔ idle' ⟨level.number, x, line⟩) :
    List.Forall₂ (Agrees idle') scopes levels := by
  induction h with
  | nil => exact .nil
  | cons hhead _ ih =>
    obtain ⟨hlevel, hlevels⟩ := List.forall_mem_cons.1 hi
    exact .cons (hhead.congr hlevel) (ih hlevels)

/-- One binding is new or another. -/
theorem insert (h : Agrees idle scope level) {name : String} {b : Binding} {names : List String}
    (hn : ∀ x, x ∈ names ↔ x = name ∨ x ∈ level.names)
    (hb : ∀ line, idle' ⟨level.number, name, line⟩ ↔ b.used = false ∧ b.line = line)
    (ho : ∀ x line, x ≠ name → (idle' ⟨level.number, x, line⟩ ↔ idle ⟨level.number, x, line⟩)) :
    Agrees idle' (scope.insert name b) { level with names := names } where
  nodup := Table.nodup_names_insert h.nodup name b
  names x := by
    rw [Table.mem_names_insert, hn, h.names]
  idle x line := by
    rw [Scope.idleLine_insert]
    split
    case isTrue heq =>
      subst heq
      rw [hb]
      cases b.used <;> simp
    case isFalse hne => exact (h.idle x line).trans (ho x line (Ne.symm hne)).symm

theorem get? (h : Agrees idle scope level) {name : String} (hm : name ∈ level.names) :
    ∃ b, scope.get? name = some b ∧
      ∀ line, idle ⟨level.number, name, line⟩ ↔ b.used = false ∧ b.line = line := by
  obtain ⟨b, hb⟩ := Option.isSome_iff_exists.1 ((Table.mem_names scope name).1 ((h.names name).2 hm))
  refine ⟨b, hb, fun line => ?_⟩
  rw [← h.idle, Scope.idleLine, hb]
  cases hu : b.used <;> simp [hu]

theorem get?_none (h : Agrees idle scope level) {name : String} (hm : name ∉ level.names) :
    scope.get? name = none := by
  have hnot := fun hs => hm ((h.names name).1 ((Table.mem_names scope name).2 hs))
  simpa using hnot

/-- The unmarked bindings of a scope are told when it is closed. -/
theorem unused_perm (h : Agrees idle scope level) {bs : List Local} (hn : bs.Nodup)
    (hb : ∀ b, b ∈ bs ↔ b.scope = level.number ∧ idle b) :
    (Analysis.unused scope).Perm (bs.map Local.warning) := by
  let entries := (scope.filter (!·.2.used)).map fun entry => (⟨level.number, entry.1, entry.2.line⟩ : Local)
  have hentries : entries.Nodup := by
    refine List.Nodup.of_map Local.name ?_
    rw [List.map_map]
    exact h.nodup.sublist (List.filter_sublist.map Prod.fst)
  have hmem : ∀ b, b ∈ entries ↔ b ∈ bs := by
    rintro ⟨k, x, line⟩
    rw [hb]
    constructor
    · intro hb
      obtain ⟨⟨y, binding⟩, hfound, heq⟩ := List.mem_map.1 hb
      cases heq
      obtain ⟨hscope, hunused⟩ := List.mem_filter.1 hfound
      refine ⟨rfl, (h.idle _ _).1 ?_⟩
      simp_all [Scope.idleLine, (Table.get?_eq_some_iff h.nodup).2 hscope]
    · rintro ⟨rfl, hi⟩
      have hline := (h.idle x line).2 hi
      obtain ⟨binding, hget, hunused⟩ := Option.bind_eq_some_iff.1 hline
      have hscope := (Table.get?_eq_some_iff h.nodup).1 hget
      split at hunused
      case isTrue => cases hunused
      case isFalse hused =>
        cases hunused
        exact List.mem_map.2 ⟨(x, binding), List.mem_filter.2 ⟨hscope, by simpa using hused⟩, rfl⟩
  have hperm := ((List.perm_ext_iff_of_nodup hentries hn).2 hmem).map Local.warning
  rw [List.map_map] at hperm
  exact ((List.mergeSort_perm _ _).map _).trans hperm

end Agrees

/-- A name is looked up in the innermost scope that has it, and marked there. -/
theorem markUsed_agrees {idle : Local → Prop} {scopes : List Scope} {levels : List Level}
    (h : List.Forall₂ (Agrees idle) scopes levels) (hn : (levels.map (·.number)).Nodup)
    (name : String) :
    (Analysis.markUsed name scopes = none ∧ levels.find? (name ∈ ·.names) = none) ∨
    ∃ d scopes' level, Analysis.markUsed name scopes = some (d, scopes') ∧
      levels.findIdx? (name ∈ ·.names) = some d ∧ levels.find? (name ∈ ·.names) = some level ∧
      List.Forall₂ (Agrees fun b => idle b ∧ b.key ≠ (level.number, name)) scopes' levels := by
  induction h with
  | nil => exact .inl ⟨rfl, rfl⟩
  | @cons scope level scopes levels hhead htail ih =>
    obtain ⟨hnumber, hnumbers⟩ := List.nodup_cons.1 hn
    have haway : ∀ {k l : Nat}, k ≠ l → ∀ x line, idle ⟨k, x, line⟩ ↔
        idle ⟨k, x, line⟩ ∧ (⟨k, x, line⟩ : Local).key ≠ (l, name) :=
      fun hkl x line => (and_iff_left fun heq => hkl (Prod.ext_iff.1 heq).1).symm
    by_cases hm : name ∈ level.names
    · obtain ⟨b, hb, hidle⟩ := hhead.get? hm
      refine .inr ⟨0, scope.insert name { b with used := true } :: scopes, level, ?_, ?_, ?_, .cons ?_ ?_⟩
      · rw [Analysis.markUsed, hb]
      · simp [List.findIdx?_cons, hm]
      · simp [hm]
      · refine hhead.insert (fun x => ?_) (fun line => ?_) fun x line hx => ?_
        · exact ⟨.inr, fun h => h.elim (fun h => h ▸ hm) id⟩
        · simp [Local.key]
        · simp [Local.key, hx]
      · refine Agrees.congrAll htail fun other hother => haway fun heq => hnumber ?_
        exact List.mem_map.2 ⟨other, hother, heq⟩
    · have hnone := hhead.get?_none hm
      rcases ih hnumbers with ⟨hmark, hfind⟩ | ⟨d, scopes', found, hmark, hidx, hfind, hrest⟩
      · refine .inl ⟨?_, ?_⟩
        · rw [Analysis.markUsed, hnone, hmark]
          rfl
        · simp [hm, hfind]
      · refine .inr ⟨d + 1, scope :: scopes', found, ?_, ?_, ?_, .cons ?_ hrest⟩
        · rw [Analysis.markUsed, hnone, hmark]
          rfl
        · simp [List.findIdx?_cons, hm, hidx]
        · simp [hm, hfind]
        · refine hhead.congr (haway fun heq => hnumber ?_)
          exact List.mem_map.2 ⟨found, List.mem_of_find?_eq_some hfind, heq.symm⟩

/-- A variable that was declared, and that nothing has mentioned. -/
def Idle (made : List Local) (hits : List (Nat × String)) (b : Local) : Prop :=
  b ∈ made ∧ b.key ∉ hits

/-- The scope has been opened, and has the name if it is still open. -/
def Nest.Knows (n : Nest) (key : Nat × String) : Prop :=
  key.1 < n.opened ∧ ∀ level ∈ n.levels, level.number = key.1 → key.2 ∈ level.names

/-- The variables of scopes that have been closed, and that nothing has mentioned. -/
def Nest.told (n : Nest) (made : List Local) (hits : List (Nat × String)) : List Local :=
  made.filter fun b => decide (b.scope ∉ n.levels.map (·.number)) && decide (b.key ∉ hits)

/-- The analysis between two events, if these variables have been declared and these were mentioned: it has
the unmarked bindings of the open scopes, and has warned of those of the others. -/
structure Tally (made : List Local) (hits : List (Nat × String)) (n : Nest) (a : Analysis) : Prop where
  scopes : List.Forall₂ (Agrees (Idle made hits)) a.scopes n.levels
  numbers : (n.levels.map (·.number)).Nodup
  opened : ∀ level ∈ n.levels, level.number < n.opened
  keys : (made.map Local.key).Nodup
  free : ∀ b ∈ made, b.name ≠ "this" ∧ b.name ≠ "super"
  declared : ∀ b ∈ made, n.Knows b.key
  mentioned : ∀ key ∈ hits, n.Knows key
  warnings : a.warnings.Perm ((n.told made hits).map Local.warning)

namespace Tally

variable {made : List Local} {hits : List (Nat × String)} {n : Nest} {a : Analysis}

theorem start (distances : Distances) : Tally [] [] {} { distances := distances } where
  scopes := .nil
  numbers := List.nodup_nil
  opened := List.forall_mem_nil _
  keys := List.nodup_nil
  free := List.forall_mem_nil _
  declared := List.forall_mem_nil _
  mentioned := List.forall_mem_nil _
  warnings := .nil

/-- Errors and distances do not count. -/
theorem quiet (h : Tally made hits n a) {a' : Analysis} (hs : a'.scopes = a.scopes)
    (hw : a'.warnings = a.warnings) : Tally made hits n a' :=
  { h with scopes := hs ▸ h.scopes, warnings := hw ▸ h.warnings }

theorem fail (h : Tally made hits n a) (t : Token) (fault : ScopeFault) :
    Tally made hits n (a.fail t fault) := h.quiet rfl rfl

theorem failIf (h : Tally made hits n a) (cond : Bool) (t : Token) (fault : ScopeFault) :
    Tally made hits n (a.failIf cond t fault) := by
  unfold Analysis.failIf
  split
  · exact h.fail t fault
  · exact h

/-! References -/

theorem refer (h : Tally made hits n a) (id : Nat) (name : String) :
    Tally made (hits ++ ((n.levels.find? (name ∈ ·.names)).map fun level => (level.number, name)).toList)
      n (a.refer id name) := by
  unfold Analysis.refer
  rcases markUsed_agrees h.scopes h.numbers name with
    ⟨hmark, hfind⟩ | ⟨d, scopes', level, hmark, -, hfind, hscopes⟩
  · rw [hmark, hfind]
    exact (List.append_nil hits).symm ▸ h
  · rw [hmark, hfind]
    have hlevel := List.mem_of_find?_eq_some hfind
    have hname : name ∈ level.names := by simpa using List.find?_some hfind
    refine { h with scopes := ?_, mentioned := fun key hkey => ?_, warnings := ?_ }
    · refine Agrees.congrAll hscopes fun _ _ x line => ?_
      simp [Idle, and_assoc]
    · rcases List.mem_append.1 hkey with hkey | hkey
      · exact h.mentioned key hkey
      · cases List.mem_singleton.1 hkey
        refine ⟨h.opened level hlevel, fun other hother heq => ?_⟩
        exact List.inj_on_of_nodup_map h.numbers hother hlevel heq ▸ hname
    · refine h.warnings.trans (.of_eq (congrArg _ (List.filter_congr fun b _ => ?_)))
      by_cases hopen : b.scope ∈ n.levels.map (·.number)
      · simp [hopen]
      · have hne : b.key ≠ (level.number, name) := fun heq =>
          hopen (List.mem_map.2 ⟨level, hlevel, (Prod.ext_iff.1 heq).1.symm⟩)
        simp [hne]

/-- To look up what no declaration gives marks nothing that counts. -/
theorem referProvided (h : Tally made hits n a) (id : Nat) {name : String}
    (hm : ∀ b ∈ made, b.name ≠ name) : Tally made hits n (a.refer id name) := by
  unfold Analysis.refer
  rcases markUsed_agrees h.scopes h.numbers name with
    ⟨hmark, -⟩ | ⟨d, scopes', level, hmark, -, -, hscopes⟩
  · rw [hmark]
    exact h
  · rw [hmark]
    refine { h with scopes := Agrees.congrAll hscopes fun _ _ x line => ?_ }
    exact and_iff_left_of_imp fun hidle heq => hm _ hidle.1 (Prod.ext_iff.1 heq).2

/-! Declarations -/

/-- The innermost scopes of the analysis and of the nest. -/
theorem head (h : Tally made hits n a) {level : Level} {rest : List Level} (hl : n.levels = level :: rest) :
    ∃ scope outer, a.scopes = scope :: outer ∧ Agrees (Idle made hits) scope level ∧
      List.Forall₂ (Agrees (Idle made hits)) outer rest := by
  have hscopes := h.scopes
  rw [hl] at hscopes
  cases hs : a.scopes with
  | nil =>
    rw [hs] at hscopes
    cases hscopes
  | cons scope outer =>
    rw [hs] at hscopes
    obtain ⟨hhead, htail⟩ := List.forall₂_cons.1 hscopes
    exact ⟨scope, outer, rfl, hhead, htail⟩

theorem scopes_nil (h : Tally made hits n a) (hl : n.levels = []) : a.scopes = [] := by
  have hscopes := h.scopes
  rw [hl] at hscopes
  exact List.forall₂_nil_right_iff.1 hscopes

theorem declare (h : Tally made hits n a) {name : Token} (hfree : name.Free) {level : Level}
    {rest : List Level} (hl : n.levels = level :: rest) (hm : name.lexeme ∉ level.names) :
    Tally (made ++ [⟨level.number, name.lexeme, name.line⟩]) hits (n.declare name.lexeme)
      (a.declare name) := by
  obtain ⟨scope, outer, hs, hhead, htail⟩ := h.head hl
  have hlevel : level ∈ n.levels := hl ▸ List.mem_cons_self
  have hnumbers := h.numbers
  rw [hl] at hnumbers
  have hother : ∀ other ∈ rest, other.number ≠ level.number := fun other ho heq =>
    (List.nodup_cons.1 hnumbers).1 (List.mem_map.2 ⟨other, ho, heq⟩)
  -- the new key is neither that of a variable nor mentioned, since its scope does not have the name
  have hnew : ∀ key, n.Knows key → key ≠ (level.number, name.lexeme) := by
    rintro _ hknows rfl
    exact hm (hknows.2 level hlevel rfl)
  have hfresh : ∀ line, (⟨level.number, name.lexeme, line⟩ : Local) ∉ made := fun line hmem =>
    hnew _ (h.declared _ hmem) rfl
  have hnest : n.declare name.lexeme = ⟨{ level with names := name.lexeme :: level.names } :: rest,
      n.opened, some name.lexeme⟩ := by
    simp [Nest.declare, hl, hm]
  have hanalysis : a.declare name = { a with
      scopes := scope.insert name.lexeme ⟨false, false, name.line⟩ :: outer } := by
    simp [Analysis.declare, hs, Table.has, hhead.get?_none hm]
  rw [hanalysis, hnest]
  have hrest : ∀ other ∈ rest, other ∈ n.levels := fun other ho => hl ▸ List.mem_cons_of_mem _ ho
  have hgrows : ∀ key, n.Knows key → Nest.Knows
      ⟨{ level with names := name.lexeme :: level.names } :: rest, n.opened, some name.lexeme⟩ key :=
    fun key hknows => ⟨hknows.1, List.forall_mem_cons.2
      ⟨fun heq => List.mem_cons_of_mem _ (hknows.2 level hlevel heq),
        fun other ho heq => hknows.2 other (hrest other ho) heq⟩⟩
  refine ⟨?_, hnumbers, ?_, ?_, ?_, fun b hb => ?_, fun key hkey => hgrows key (h.mentioned key hkey), ?_⟩
  · refine .cons (hhead.insert (fun x => List.mem_cons) (fun line => ?_) fun x line hx => ?_) ?_
    · have hkey : (⟨level.number, name.lexeme, line⟩ : Local).key ∉ hits := fun hmem =>
        hnew _ (h.mentioned _ hmem) rfl
      simp [Idle, hfresh, hkey, eq_comm]
    · simp [Idle, hx]
    · refine Agrees.congrAll htail fun other ho x line => ?_
      simp [Idle, hother other ho]
  · exact List.forall_mem_cons.2
      ⟨h.opened level hlevel, fun other ho => h.opened other (hrest other ho)⟩
  · rw [List.map_append]
    refine List.nodup_append.2 ⟨h.keys, List.nodup_singleton _, fun key hkey _ hk => ?_⟩
    obtain ⟨b, hb, rfl⟩ := List.mem_map.1 hkey
    exact List.mem_singleton.1 hk ▸ hnew _ (h.declared b hb)
  · exact List.forall_mem_append.2 ⟨h.free, List.forall_mem_singleton.2 hfree⟩
  · rcases List.mem_append.1 hb with hb | hb
    · exact hgrows _ (h.declared b hb)
    · cases List.mem_singleton.1 hb
      exact ⟨h.opened level hlevel, List.forall_mem_cons.2
        ⟨fun _ => List.mem_cons_self, fun other ho heq => absurd heq (hother other ho)⟩⟩
  · refine h.warnings.trans (.of_eq (congrArg _ ?_))
    simp [Nest.told, hl, List.filter_append]

theorem declareAgain (h : Tally made hits n a) (name : Token)
    (hm : ∀ level ∈ n.levels.head?, name.lexeme ∈ level.names) :
    Tally made hits (n.declare name.lexeme) (a.declare name) := by
  have hnest : n.declare name.lexeme = n := by
    unfold Nest.declare
    split
    · rfl
    case h_2 level rest hl => exact if_pos (hm level (by rw [hl]; rfl))
  rw [hnest]
  unfold Analysis.declare
  cases hl : n.levels with
  | nil =>
    rw [h.scopes_nil hl]
    exact h
  | cons level rest =>
    obtain ⟨scope, outer, hs, hhead, -⟩ := h.head hl
    obtain ⟨b, hb, -⟩ := hhead.get? (hm level (by rw [hl]; rfl))
    rw [hs]
    simp only [Table.has, hb, Option.isSome_some, if_true]
    exact h.quiet rfl rfl

theorem define (h : Tally made hits n a) (name : Token) :
    Tally made hits n.define (a.define name) := by
  have hsame : Tally made hits n.define a :=
    ⟨h.scopes, h.numbers, h.opened, h.keys, h.free, h.declared, h.mentioned, h.warnings⟩
  unfold Analysis.define
  cases hl : n.levels with
  | nil =>
    rw [h.scopes_nil hl]
    exact hsame
  | cons level rest =>
    obtain ⟨scope, outer, hs, hhead, htail⟩ := h.head hl
    rw [hs]
    by_cases hm : name.lexeme ∈ level.names
    · obtain ⟨b, hb, hidle⟩ := hhead.get? hm
      simp only [hb]
      refine { hsame with scopes := ?_ }
      show List.Forall₂ _ _ n.levels
      rw [hl]
      refine .cons (hhead.insert (fun x => ?_) hidle fun _ _ _ => Iff.rfl) htail
      exact ⟨.inr, fun h => h.elim (fun h => h ▸ hm) id⟩
    · simp only [hhead.get?_none hm]
      exact hsame

/-! Scopes -/

theorem openScope (h : Tally made hits n a) (scope : Scope) {names : List String}
    (hn : scope.names.Nodup) (hnames : ∀ x, x ∈ scope.names ↔ x ∈ names)
    (hidle : ∀ x, Scope.idleLine scope x = none) :
    Tally made hits (n.openScope names) { a with scopes := scope :: a.scopes } := by
  have hbelow : ∀ key, n.Knows key → n.opened ≠ key.1 := fun key hknows => (Nat.ne_of_lt hknows.1).symm
  have hlater : ∀ key, n.Knows key → (n.openScope names).Knows key := fun key hknows =>
    ⟨Nat.lt_succ_of_lt hknows.1, List.forall_mem_cons.2
      ⟨fun heq => absurd heq (hbelow key hknows), hknows.2⟩⟩
  refine ⟨.cons ⟨hn, hnames, fun x line => ?_⟩ h.scopes, ?_, ?_, h.keys, h.free,
    fun b hb => hlater _ (h.declared b hb), fun key hkey => hlater _ (h.mentioned key hkey), ?_⟩
  · rw [hidle]
    refine iff_of_false nofun fun hi => ?_
    exact hbelow _ (h.declared _ hi.1) rfl
  · refine List.nodup_cons.2 ⟨fun hmem => ?_, h.numbers⟩
    obtain ⟨level, hlevel, heq⟩ := List.mem_map.1 hmem
    exact absurd heq (Nat.ne_of_lt (h.opened level hlevel))
  · exact List.forall_mem_cons.2
      ⟨Nat.lt_succ_self _, fun level hlevel => Nat.lt_succ_of_lt (h.opened level hlevel)⟩
  · refine h.warnings.trans (.of_eq (congrArg _ (List.filter_congr fun b hb => ?_)))
    have hne : b.scope ≠ n.opened := (hbelow _ (h.declared b hb)).symm
    simp [Nest.openScope, hne]

theorem closeScope (h : Tally made hits n a) : Tally made hits n.closeScope a.closeScope := by
  unfold Analysis.closeScope
  cases hl : n.levels with
  | nil =>
    have hsame : n.closeScope = n := by
      cases n
      cases hl
      rfl
    rw [h.scopes_nil hl, hsame]
    exact h
  | cons level rest =>
    obtain ⟨scope, outer, hs, hhead, htail⟩ := h.head hl
    have hnest : n.closeScope = ⟨rest, n.opened, n.initializing⟩ := by
      rw [Nest.closeScope, hl]
      rfl
    have hrest : ∀ other ∈ rest, other ∈ n.levels := fun other ho => hl ▸ List.mem_cons_of_mem _ ho
    have hshrinks : ∀ key, n.Knows key → Nest.Knows ⟨rest, n.opened, n.initializing⟩ key :=
      fun key hknows => ⟨hknows.1, fun other ho => hknows.2 other (hrest other ho)⟩
    have hnumbers := h.numbers
    rw [hl] at hnumbers
    rw [hs, hnest]
    refine ⟨htail, (List.nodup_cons.1 hnumbers).2, fun other ho => h.opened other (hrest other ho),
      h.keys, h.free, fun b hb => hshrinks _ (h.declared b hb),
      fun key hkey => hshrinks _ (h.mentioned key hkey), ?_⟩
    -- those of the scope that is closed now, and those that were told before
    let now := made.filter fun b => decide (b.scope = level.number) && decide (b.key ∉ hits)
    have hnow : (Analysis.unused scope).Perm (now.map Local.warning) := by
      refine hhead.unused_perm (h.keys.of_map.filter _) fun b => ?_
      simp [now, Idle, and_left_comm]
    have hsplit : (n.told made hits ++ now).Perm (Nest.told ⟨rest, n.opened, n.initializing⟩ made hits) := by
      refine .trans (.of_eq ?_) (List.filter_append_perm (fun b => decide (b.scope ≠ level.number)) _)
      unfold Nest.told
      rw [List.filter_filter, List.filter_filter, hl]
      refine congrArg₂ _ (List.filter_congr fun b _ => ?_) (List.filter_congr fun b _ => ?_)
      · simp [Bool.and_assoc]
      · by_cases hscope : b.scope = level.number
        · have hclosed : b.scope ∉ rest.map (·.number) := hscope ▸ (List.nodup_cons.1 hnumbers).1
          simp [hscope, hscope ▸ hclosed]
        · simp [hscope]
    refine (h.warnings.append hnow).trans ?_
    rw [← List.map_append]
    exact hsplit.map _

/-! Events -/

theorem same (h : Tally made hits n a) : Tally (made ++ []) (hits ++ []) n a := by
  rwa [List.append_nil, List.append_nil]

theorem step {e : Event} (h : Tally made hits e.within.toNest a) (hw : e.act.Written Token.Plain) :
    Tally (made ++ e.local?.toList) (hits ++ e.target?.toList) (e.act.next e.within.toNest)
      (a.step e) := by
  obtain ⟨act, sur⟩ := e
  dsimp only at h hw
  cases act with
  | refer ref =>
    obtain ⟨access, id, name⟩ := ref
    obtain ⟨⟨hspelt, -⟩, hkind⟩ := hw
    cases access with
    | read => exact (List.append_nil made).symm ▸ (h.failIf _ name _).refer id name.lexeme
    | write => exact (List.append_nil made).symm ▸ h.refer id name.lexeme
    | receiver =>
      have hrefer := h.referProvided id fun b hb heq =>
        (h.free b hb).1 (heq.trans (hspelt .thisKw hkind))
      dsimp only [Analysis.step]
      cases sur.context.inClass with
      | outside => exact (h.fail name .thisOutsideClass).same
      | plain => exact hrefer.same
      | derived => exact hrefer.same
    | parent =>
      have hrefer := h.referProvided id fun b hb heq =>
        (h.free b hb).2 (heq.trans (hspelt .superKw hkind))
      dsimp only [Analysis.step]
      cases sur.context.inClass with
      | outside => exact (h.fail name .superOutsideClass).same
      | plain => exact (h.fail name .superWithoutSuperclass).same
      | derived => exact hrefer.same
  | declare name =>
    obtain ⟨⟨-, hfree⟩, hkind⟩ := hw
    have htarget : (Event.mk (.declare name) sur).target? = none := rfl
    rw [htarget, Option.toList_none, List.append_nil]
    dsimp only [Event.local?]
    split
    case h_1 name' level rest hact hl =>
      cases hact
      split
      case isTrue hm =>
        rw [Option.toList_none, List.append_nil]
        exact h.declareAgain name fun other ho => by
          rw [hl] at ho
          cases ho
          exact hm
      case isFalse hm => exact h.declare (hfree hkind) hl hm
    case h_2 hnone =>
      rw [Option.toList_none, List.append_nil]
      refine h.declareAgain name fun level hlevel => ?_
      cases hl : sur.levels with
      | nil =>
        rw [hl] at hlevel
        cases hlevel
      | cons level rest => exact (hnone name level rest rfl hl).elim
  | define name => exact (h.define name).same
  | inherit name superclass =>
    obtain ⟨id, superName, rfl, -⟩ := hw
    exact (h.failIf _ superName _).same
  | breakLoop keyword => exact (h.failIf _ keyword _).same
  | returnWith keyword value => exact ((h.failIf _ keyword _).failIf _ keyword _).same
  | openScope provided =>
    cases provided with
    | none =>
      exact (h.openScope [] List.nodup_nil (fun _ => Iff.rfl) fun _ => rfl).same
    | some entry =>
      refine (h.openScope (Table.insert [] entry.1 ⟨true, true, entry.2⟩) (List.nodup_singleton _)
        (fun _ => Iff.rfl) fun x => ?_).same
      rw [Scope.idleLine_insert]
      split <;> rfl
  | closeScope => exact h.closeScope.same

theorem run {m : Nest} {es : List Event} (hf : Follows n es m) (h : Tally made hits n a)
    (hw : AllWritten Token.Plain es) :
    Tally (made ++ es.filterMap Event.local?) (hits ++ es.filterMap Event.target?) m
      (es.foldl Analysis.step a) := by
  induction hf generalizing made hits a with
  | nil => exact h.same
  | @cons n m e rest he ht _ ih =>
    subst he
    obtain ⟨hhead, hrest⟩ := List.forall_mem_cons.1 hw
    have htally := ih (h.step hhead) hrest
    have hcons : ∀ {α : Type} (f : Event → Option α) (xs : List α),
        xs ++ (f e).toList ++ rest.filterMap f = xs ++ (e :: rest).filterMap f := by
      intro α f xs
      rw [List.append_assoc, List.filterMap_cons]
      cases f e <;> rfl
    rwa [hcons, hcons] at htally

/-! Distances -/

theorem distances_refer (h : Tally made hits n a) {id : Nat} (hnone : a.distances[id]? = none)
    (name : String) :
    (a.refer id name).distances[id]? = n.levels.findIdx? (name ∈ ·.names) := by
  unfold Analysis.refer
  rcases markUsed_agrees h.scopes h.numbers name with
    ⟨hmark, hfind⟩ | ⟨d, scopes', level, hmark, hidx, -, -⟩
  · rw [hmark, hnone, eq_comm, List.findIdx?_eq_none_iff]
    simpa using hfind
  · rw [hmark, hidx]
    exact Std.TreeMap.getElem?_insert_self

end Tally

/-- An event changes no distance but that of its own identity. -/
theorem Analysis.distances_step_of_ne (a : Analysis) {e : Event} {id : Nat} (h : e.node? ≠ some id) :
    (a.step e).distances[id]? = a.distances[id]? := by
  rw [distances_step]
  refine getElem?_record_of_not_mem (fun hmem => h ?_) _
  rwa [Event.ids_visit?, Option.mem_toList] at hmem

theorem Analysis.distances_foldl_of_notMem (a : Analysis) {es : List Event} {id : Nat} (h : id ∉ nodes es) :
    (es.foldl Analysis.step a).distances[id]? = a.distances[id]? := by
  rw [distances_foldl]
  exact getElem?_record_of_not_mem (by rwa [ids_sights]) _

/-- The distance on record for an expression that means a variable is that to the innermost scope with the name. -/
def Event.Recorded (distances : Distances) (e : Event) : Prop :=
  match e.act with
  | .refer ⟨.read, id, name⟩ | .refer ⟨.write, id, name⟩ =>
    distances[id]? = e.within.levels.findIdx? (name.lexeme ∈ ·.names)
  | _ => True

theorem Event.Recorded.congr {e : Event} {distances distances' : Distances} (h : e.Recorded distances)
    (hd : ∀ id ∈ e.node?, distances'[id]? = distances[id]?) : e.Recorded distances' := by
  obtain ⟨act, sur⟩ := e
  cases act with
  | refer ref =>
    obtain ⟨access, id, name⟩ := ref
    cases access with
    | read => exact (hd id rfl).trans h
    | write => exact (hd id rfl).trans h
    | receiver => trivial
    | parent => trivial
  | _ => trivial

theorem Event.reaches_iff {e : Event} {distances : Distances} (h : e.Recorded distances) (b : Local) :
    e.reaches distances b = true ↔ e.target? = some b.key := by
  obtain ⟨act, sur⟩ := e
  cases act with
  | refer ref =>
    obtain ⟨access, id, name⟩ := ref
    have hmeant : ∀ found : Option Level, (name.lexeme = b.name ∧ found.any (·.number = b.scope) = true) ↔
        (found.map fun level => (level.number, name.lexeme)) = some b.key := by
      intro found
      cases found <;> simp [Local.key, and_comm]
    cases access with
    | read =>
      have hd : distances[id]? = _ := h
      refine Iff.trans ?_ (hmeant _)
      simp only [Event.reaches, hd, List.find?_eq_bind_findIdx?_getElem?]
      simp
    | write =>
      have hd : distances[id]? = _ := h
      refine Iff.trans ?_ (hmeant _)
      simp only [Event.reaches, hd, List.find?_eq_bind_findIdx?_getElem?]
      simp
    | receiver => exact iff_of_false (by simp [Event.reaches]) nofun
    | parent => exact iff_of_false (by simp [Event.reaches]) nofun
  | _ => exact iff_of_false nofun nofun

theorem Tally.recorded_step {made : List Local} {hits : List (Nat × String)} {a : Analysis} {e : Event}
    (h : Tally made hits e.within.toNest a) (hd : ∀ id ∈ e.node?, a.distances[id]? = none) :
    e.Recorded (a.step e).distances := by
  obtain ⟨act, sur⟩ := e
  cases act with
  | refer ref =>
    obtain ⟨access, id, name⟩ := ref
    cases access with
    | read => exact (h.failIf _ name _).distances_refer ((a.distances_failIf _ name _).symm ▸ hd id rfl) _
    | write => exact h.distances_refer (hd id rfl) _
    | receiver => trivial
    | parent => trivial
  | _ => trivial

theorem Tally.recorded {made : List Local} {hits : List (Nat × String)} {n m : Nest} {a : Analysis}
    {es : List Event} (hf : Follows n es m) (h : Tally made hits n a) (hw : AllWritten Token.Plain es)
    (hn : (nodes es).Nodup) (hd : ∀ id ∈ nodes es, a.distances[id]? = none) :
    ∀ e ∈ es, e.Recorded (es.foldl Analysis.step a).distances := by
  induction hf generalizing made hits a with
  | nil => exact List.forall_mem_nil _
  | @cons n m e rest he ht _ ih =>
    subst he
    obtain ⟨hhead, hrest⟩ := List.forall_mem_cons.1 hw
    rw [nodes_cons] at hn hd
    obtain ⟨-, hnodup, hdisjoint⟩ := List.nodup_append.1 hn
    obtain ⟨hnone, hnones⟩ := List.forall_mem_append.1 hd
    have hapart : ∀ id ∈ e.node?, id ∉ nodes rest := fun id hid hmem =>
      hdisjoint id (Option.mem_toList.2 hid) id hmem rfl
    refine List.forall_mem_cons.2 ⟨?_, ih (h.step hhead) hrest hnodup fun id hid => ?_⟩
    · refine (h.recorded_step fun id hid => hnone id (Option.mem_toList.2 hid)).congr fun id hid => ?_
      exact (a.step e).distances_foldl_of_notMem (hapart id hid)
    · rw [a.distances_step_of_ne fun hnode => hapart id hnode hid]
      exact hnones id hid

/-- No scope is opened by names outside of all scopes. -/
theorem Nest.levels_bindAll {n : Nest} (h : n.levels = []) (names : List String) :
    (n.bindAll names).levels = [] := by
  induction names generalizing n with
  | nil => exact h
  | cons name rest ih =>
    refine ih (n := (n.declare name).define) ?_
    rw [Nest.define, Nest.declare, h]
    exact h

end Scoping

open Scoping

theorem Item.plain_of_mem_tokens {source : String} {t : Token}
    (h : t ∈ Item.tokens (Token.scan source)) : t.Plain :=
  ⟨Item.spelt_of_mem_tokens h, fun hk => Item.free_of_mem_tokens h hk⟩

theorem Stmt.warnings_by_line (program : List Stmt) (distances : Distances) :
    (Stmt.analyse program distances).warnings.Pairwise (·.line ≤ ·.line) := by
  have htrans : ∀ u v w : Warning, decide (u.line ≤ v.line) = true → decide (v.line ≤ w.line) = true →
      decide (u.line ≤ w.line) = true := fun _ _ _ huv hvw =>
    decide_eq_true (Nat.le_trans (of_decide_eq_true huv) (of_decide_eq_true hvw))
  have htotal : ∀ v w : Warning, (decide (v.line ≤ w.line) || decide (w.line ≤ v.line)) = true :=
    fun v w => by simpa using Nat.le_total v.line w.line
  exact (List.pairwise_mergeSort htrans htotal _).imp of_decide_eq_true

/-- The warnings about a program that was read are one for each local variable that no expression means, with the line
of its declaration, and no others. They come by line, and they do not depend on the orders in which the bindings of
the scopes come out. -/
theorem Stmt.analyse_warnings {source : String} {nextId : Nat} {program : List Stmt}
    (h : (Stmt.parse (Item.tokens (Token.scan source)) nextId).1 = .ok program) (distances : Distances)
    (hd : ∀ id, nextId ≤ id → distances[id]? = none) :
    let events := Stmt.eventsAll {} program
    let locals := events.filterMap Event.local?
    let a := Stmt.analyse program distances
    (locals.map Local.key).Nodup ∧ (∀ b ∈ locals, b.name ≠ "this" ∧ b.name ≠ "super") ∧
    a.warnings.Perm
      ((locals.filter fun b => !events.any (Event.reaches a.distances b)).map Local.warning) ∧
    a.warnings.Pairwise (·.line ≤ ·.line) ∧
    ∀ order : Order, order.Fair →
      ((Stmt.walkAll order program (.start distances)).analysis.warnings.mergeSort
        fun v w => v.line ≤ w.line) = a.warnings := by
  intro events locals a
  have hfollows := Stmt.followsAll {} rfl program
  have hwritten : AllWritten Token.Plain events := (Stmt.parse_sound h).1.written
    (fun t ht => Item.plain_of_mem_tokens ((List.takeWhile_prefix _).subset ht)) {}
  have hfresh := (Stmt.parse_sound h).2.perm (Stmt.nodes_eventsAll {} program).symm
  have htally := (Tally.start distances).run hfollows hwritten
  have hrecorded := (Tally.start distances).recorded hfollows hwritten hfresh.nodup
    fun id hid => hd id (hfresh.low_le id hid)
  rw [(Stmt.runsAll {} [] program _).leads] at htally hrecorded
  refine ⟨htally.keys, htally.free, ?_, Stmt.warnings_by_line program distances, fun order ho => ?_⟩
  · refine ((List.mergeSort_perm _ _).trans htally.warnings).trans (.of_eq (congrArg _ ?_))
    refine List.filter_congr fun b _ => ?_
    have hlevels : ((({} : Surroundings).toNest).afterAll program).levels = [] :=
      Nest.levels_bindAll rfl _
    have hreached : events.any (Event.reaches a.distances b) = true ↔
        b.key ∈ events.filterMap Event.target? := by
      rw [List.any_eq_true, List.mem_filterMap]
      exact exists_congr fun e => and_congr_right fun he => Event.reaches_iff (hrecorded e he) b
    rw [hlevels, Bool.eq_iff_iff, Bool.and_eq_true, decide_eq_true_eq, decide_eq_true_eq,
      Bool.not_eq_true', ← Bool.not_eq_true, hreached]
    exact and_iff_right List.not_mem_nil
  · rw [Stmt.walkAll_eq ho]
    rfl

/-- The inner `a` is assigned, and the outer one is not. Nothing mentions `q`, `g` and `x`. -/
def shadowedText : String :=
  "fun f(p, q) \x7b var a = p;\n\x7b var a; a = nil; \x7d\nfun g(x) \x7b return f; \x7d \x7d"

set_option maxRecDepth 20000 in
theorem locals_shadowedText :
    (match (Stmt.parse (Item.tokens (Token.scan shadowedText)) 0).1 with
      | .ok program =>
        let events := Stmt.eventsAll {} program
        some (((events.filterMap Event.local?).filter fun b =>
          !events.any (Event.reaches (Stmt.analyse program {}).distances b)).map Local.warning)
      | .error _ => none) =
    some [⟨1, .unusedVariable "q"⟩, ⟨1, .unusedVariable "a"⟩, ⟨3, .unusedVariable "g"⟩,
      ⟨3, .unusedVariable "x"⟩] := by
  cbv

theorem Stmt.analyse_warnings_shadowedText :
    ∃ program, (Stmt.parse (Item.tokens (Token.scan shadowedText)) 0).1 = .ok program ∧
      (Stmt.analyse program {}).warnings.Perm
        [⟨1, .unusedVariable "q"⟩, ⟨1, .unusedVariable "a"⟩, ⟨3, .unusedVariable "g"⟩,
          ⟨3, .unusedVariable "x"⟩] := by
  have hlocals := locals_shadowedText
  split at hlocals
  case h_1 program hparse =>
    have hwarnings := (Stmt.analyse_warnings hparse {} fun _ _ => Std.TreeMap.getElem?_emptyc).2.2.1
    exact ⟨program, hparse, hwarnings.trans (.of_eq (Option.some.inj hlocals))⟩
  case h_2 => cases hlocals

end Lox
