import Mathlib
import Lox.Environment

/-!
# By chain and by distance

A variable is found by walking outward until a frame binds its name, or by going a known number of steps and looking
there only. The two agree: walking is going to the least distance at which the name is bound. An assignment of
either kind changes one slot of one scope and gives no scope a name. This holds in every store of scopes, whatever
scopes share what is around them.
-/

namespace Lox

namespace Frames

variable {fs fs' : Frames} {env : Env} {name : String}

/-! ## Walking is going to the least distance -/

theorem getAt?_zero (fs : Frames) (i : Nat) (rest : Env) (name : String) :
    fs.getAt? (i :: rest) 0 name = fs.read i name := rfl

theorem getAt?_succ (fs : Frames) (i : Nat) (rest : Env) (d : Nat) (name : String) :
    fs.getAt? (i :: rest) (d + 1) name = fs.getAt? rest d name := rfl

/-- At distance `d` and at no shorter one the name is bound. -/
def Nearest (fs : Frames) (env : Env) (name : String) (d : Nat) : Prop :=
  (fs.getAt? env d name).isSome = true ∧ ∀ k < d, fs.getAt? env k name = none

theorem exists_nearest (h : ∃ d, (fs.getAt? env d name).isSome = true) : ∃ d, fs.Nearest env name d := by
  refine ⟨Nat.find h, Nat.find_spec h, fun k hk => ?_⟩
  simpa using Nat.find_min h hk

/-- One step further in, the nearest binding is here or one step further away. -/
theorem nearest_cons {i d : Nat} {rest : Env} (h : fs.Nearest (i :: rest) name d) :
    (d = 0 ∧ (fs.read i name).isSome = true) ∨
      ∃ k, d = k + 1 ∧ fs.read i name = none ∧ fs.Nearest rest name k := by
  obtain ⟨hbound, hleast⟩ := h
  cases d with
  | zero => exact .inl ⟨rfl, hbound⟩
  | succ k =>
    refine .inr ⟨k, rfl, hleast 0 (Nat.succ_pos k), hbound, fun j hj => ?_⟩
    exact hleast (j + 1) (Nat.succ_lt_succ hj)

theorem get?_of_nearest {d : Nat} (h : fs.Nearest env name d) : fs.get? env name = fs.getAt? env d name := by
  induction env generalizing d with
  | nil => cases h.1
  | cons i rest ih =>
    rcases nearest_cons h with ⟨rfl, hbound⟩ | ⟨k, rfl, hnone, hrest⟩
    · obtain ⟨v, hv⟩ := Option.isSome_iff_exists.1 hbound
      simp only [get?, getAt?_zero, hv]
    · simp only [get?, getAt?_succ, hnone]
      exact ih hrest

theorem isSome_get?_iff : (fs.get? env name).isSome = true ↔ ∃ d, (fs.getAt? env d name).isSome = true := by
  constructor
  · intro h
    induction env with
    | nil => cases h
    | cons i rest ih =>
      cases hi : fs.read i name with
      | some v => exact ⟨0, by rw [getAt?_zero, hi]; rfl⟩
      | none =>
        simp only [get?, hi] at h
        obtain ⟨d, hd⟩ := ih h
        exact ⟨d + 1, hd⟩
  · intro h
    obtain ⟨d, hd⟩ := exists_nearest h
    rw [get?_of_nearest hd]
    exact hd.1

theorem holder?_of_nearest {d : Nat} (h : fs.Nearest env name d) : fs.holder? env name = fs.holderAt? env d name := by
  induction env generalizing d with
  | nil => cases h.1
  | cons i rest ih =>
    rcases nearest_cons h with ⟨rfl, hbound⟩ | ⟨k, rfl, hnone, hrest⟩
    · simp [holder?, holderAt?, hbound]
    · have hne : ¬ (fs.read i name).isSome = true := by simp [hnone]
      rw [holder?, if_neg hne, ih hrest]
      rfl

theorem holder?_eq_none (h : fs.get? env name = none) : fs.holder? env name = none := by
  rw [get?_eq_holder?_bind] at h
  cases hh : fs.holder? env name with
  | none => rfl
  | some i =>
    have hbound := isSome_of_holder? hh
    rw [hh, Option.bind_some] at h
    rw [h] at hbound
    cases hbound

/-! ## What an assignment changes -/

/-- The one slot has another value, and nothing else is different. -/
structure Slot (fs fs' : Frames) (i : Nat) (name : String) (value : Value) : Prop where
  read : ∀ j other, fs'.read j other = if j = i ∧ other = name then some value else fs.read j other
  names : ∀ j, fs'.names j = fs.names j

end Frames

theorem Table.names_insert_of_has {α : Type} {t : Table α} {name : String} (h : (t.get? name).isSome = true)
    (value : α) : (t.insert name value).names = t.names := by
  induction t with
  | nil => cases h
  | cons entry rest ih =>
    obtain ⟨key, old⟩ := entry
    by_cases hk : key = name
    · simp [Table.insert, Table.names, hk]
    · rw [Table.get?, if_neg hk] at h
      have hrest := ih h
      simp only [Table.names] at hrest ⊢
      simp [Table.insert, hk, hrest]

namespace Frames

variable {fs fs' : Frames} {env : Env} {name : String}

theorem slot_define {i : Nat} (h : (fs.read i name).isSome = true) (value : Value) :
    fs.Slot (fs.define i name value) i name value := by
  obtain ⟨old, hold⟩ := Option.isSome_iff_exists.1 h
  have hi := lt_size_of_read hold
  refine ⟨fun j other => ?_, fun j => ?_⟩
  · rw [read_define fs hi]
    simp only [eq_comm]
  · unfold names
    by_cases hj : i = j
    · subst hj
      have hframe : (fs.define i name value)[i]? = some (fs[i].insert name value) := by
        simp [define, hi, Array.getElem_modify]
      have hhas : (fs[i].get? name).isSome = true := by simpa [Frames.read, hi] using h
      rw [hframe, Array.getElem?_eq_getElem hi]
      simp only [Table.sortedNames, Table.names_insert_of_has hhas]
    · have hframe : (fs.define i name value)[j]? = fs[j]? := by simp [define, Array.getElem?_modify, hj]
      rw [hframe]

theorem isSome_assignAt?_iff {d : Nat} {value : Value} :
    (fs.assignAt? env d name value).isSome = true ↔ (fs.getAt? env d name).isSome = true := by
  unfold assignAt? holderAt? getAt?
  cases env[d]? with
  | none => exact Iff.rfl
  | some i =>
    by_cases h : (fs.read i name).isSome = true
    · simp [h]
    · simp [h]

theorem slot_of_assignAt? {d : Nat} {value : Value} (h : fs.assignAt? env d name value = some fs') :
    ∃ i, env[d]? = some i ∧ fs.Slot fs' i name value := by
  unfold assignAt? holderAt? at h
  cases hi : env[d]? with
  | none => simp [hi] at h
  | some i =>
    by_cases hbound : (fs.read i name).isSome = true
    · simp only [hi, hbound, if_true, Option.map_some, Option.some.injEq] at h
      exact ⟨i, rfl, h ▸ slot_define hbound value⟩
    · simp [hi, hbound] at h

theorem assign?_of_nearest {d : Nat} (h : fs.Nearest env name d) (value : Value) :
    fs.assign? env name value = fs.assignAt? env d name value := by
  rw [assign?, assignAt?, holder?_of_nearest h]

theorem assign?_eq_none (h : fs.get? env name = none) (value : Value) : fs.assign? env name value = none := by
  rw [assign?, holder?_eq_none h]
  rfl

end Frames

namespace Frames

theorem size_of_assign? {fs fs' : Frames} {env : Env} {name : String} {value : Value}
    (h : fs.assign? env name value = some fs') : fs'.size = fs.size := by
  obtain ⟨i, -, rfl⟩ := Option.map_eq_some_iff.1 h
  exact size_define _ _ _ _

theorem size_of_assignAt? {fs fs' : Frames} {env : Env} {d : Nat} {name : String} {value : Value}
    (h : fs.assignAt? env d name value = some fs') : fs'.size = fs.size := by
  obtain ⟨i, -, rfl⟩ := Option.map_eq_some_iff.1 h
  exact size_define _ _ _ _

end Frames

/-! ## Stores of scopes -/

/-- Scopes by number, in the order in which they were made. The chain of each starts with its own frame and goes on
with that of an earlier scope, or ends there. -/
structure Scopes where
  frames : Frames := #[]
  chains : Array Env := #[]
  size_eq : chains.size = frames.size := by rfl
  linked : ∀ (k : Nat) (chain : Env), chains[k]? = some chain →
    ∃ outer, chain = k :: outer ∧ (outer = [] ∨ ∃ j < k, chains[j]? = some outer) := by nofun

namespace Scopes

/-- The frames from the scope outward. A scope that was not made has none. -/
def chain (s : Scopes) (k : Nat) : Env := (s.chains[k]?).getD []

/-- A scope of its own, or one inside the scope `outer`. -/
def new (s : Scopes) (outer : Option Nat) : Scopes where
  frames := s.frames.add []
  chains := s.chains.push (s.chains.size :: (outer.map s.chain).getD [])
  size_eq := by rw [Array.size_push, Frames.size_add, s.size_eq]
  linked k chain hk := by
    -- earlier chains are as they were, and the new one goes on with one of them
    have hkept : ∀ (j : Nat) (env : Env), s.chains[j]? = some env →
        (s.chains.push (s.chains.size :: (outer.map s.chain).getD []))[j]? = some env := by
      intro j env hj
      obtain ⟨hlt, -⟩ := Array.getElem?_eq_some_iff.1 hj
      rw [Array.getElem?_push, if_neg (Nat.ne_of_lt hlt), hj]
    rw [Array.getElem?_push] at hk
    split at hk
    case isTrue heq =>
      cases hk
      refine ⟨_, by rw [heq], ?_⟩
      cases outer with
      | none => exact .inl rfl
      | some j =>
        cases hj : s.chains[j]? with
        | none => exact .inl (by simp [chain, hj])
        | some env =>
          obtain ⟨hlt, -⟩ := Array.getElem?_eq_some_iff.1 hj
          refine .inr ⟨j, heq ▸ hlt, ?_⟩
          rw [hkept j env hj]
          simp [chain, hj]
    case isFalse =>
      obtain ⟨rest, rfl, hrest⟩ := s.linked k chain hk
      refine ⟨rest, rfl, hrest.imp_right fun ⟨j, hj, henv⟩ => ⟨j, hj, hkept j rest henv⟩⟩

/-- The scopes with other values in their frames. -/
def withFrames (s : Scopes) (frames : Frames) (h : frames.size = s.frames.size) : Scopes where
  frames := frames
  chains := s.chains
  size_eq := s.size_eq.trans h.symm
  linked := s.linked

/-- What can be done to a store of scopes. -/
inductive Change where
  | new (outer : Option Nat)
  | define (scope : Nat) (name : String) (value : Value)
  | assign (scope : Nat) (name : String) (value : Value)
  | assignAt (scope distance : Nat) (name : String) (value : Value)

/-- An assignment that fails does nothing. -/
def apply (s : Scopes) : Change → Scopes
  | .new outer => s.new outer
  | .define k name value =>
    match s.chain k with
    | [] => s
    | i :: _ => s.withFrames (s.frames.define i name value) (Frames.size_define _ _ _ _)
  | .assign k name value =>
    match h : s.frames.assign? (s.chain k) name value with
    | none => s
    | some frames => s.withFrames frames (Frames.size_of_assign? h)
  | .assignAt k d name value =>
    match h : s.frames.assignAt? (s.chain k) d name value with
    | none => s
    | some frames => s.withFrames frames (Frames.size_of_assignAt? h)

/-- The store that is built by these changes, one after another. -/
def build (changes : List Change) : Scopes := changes.foldl apply {}

/-- The number of the scope `d` steps out, if there is one. -/
def ancestor? (s : Scopes) (k d : Nat) : Option Nat := (s.chain k)[d]?

/-- What lies in a chain is a scope with a chain of its own. -/
theorem drop_chain (s : Scopes) (k d : Nat) :
    (s.chain k).drop d = ((s.ancestor? k d).map s.chain).getD [] := by
  unfold ancestor?
  induction d generalizing k with
  | zero =>
    cases hk : s.chains[k]? with
    | none => simp [chain, hk]
    | some env =>
      obtain ⟨outer, rfl, -⟩ := s.linked k env hk
      simp [chain, hk]
  | succ d ih =>
    cases hk : s.chains[k]? with
    | none => simp [chain, hk]
    | some env =>
      obtain ⟨outer, rfl, hout⟩ := s.linked k env hk
      have hchain : s.chain k = k :: outer := by simp [chain, hk]
      rw [hchain, List.drop_succ_cons, List.getElem?_cons_succ]
      rcases hout with rfl | ⟨j, -, hj⟩
      · simp
      · have hinner : s.chain j = outer := by simp [chain, hj]
        rw [← hinner]
        exact ih j

theorem ancestor?_chain (s : Scopes) (k d : Nat) : (s.chain k).ancestor? d = (s.ancestor? k d).map s.chain := by
  have hdrop := s.drop_chain k d
  unfold Env.ancestor?
  cases ht : s.ancestor? k d with
  | none =>
    rw [ht] at hdrop
    rw [hdrop]
    rfl
  | some t =>
    rw [ht] at hdrop
    obtain ⟨hlt, -⟩ := List.getElem?_eq_some_iff.1 ht
    split
    case h_1 hnil => exact absurd (List.drop_eq_nil_iff.1 hnil) (Nat.not_le.2 hlt)
    case h_2 => exact congrArg some hdrop

theorem getAt?_chain (s : Scopes) (k d : Nat) (name : String) :
    s.frames.getAt? (s.chain k) d name = (s.ancestor? k d).bind (s.frames.read · name) := by
  unfold Frames.getAt? ancestor?
  cases (s.chain k)[d]? with
  | none => rfl
  | some t => rfl

variable {s : Scopes} {k d t : Nat} {name : String}

theorem apply_assignAt_of_none (h : s.frames.getAt? (s.chain k) d name = none) (value : Value) :
    s.apply (.assignAt k d name value) = s := by
  have hnot : ¬ (s.frames.assignAt? (s.chain k) d name value).isSome = true := by
    rw [Frames.isSome_assignAt?_iff, h]
    exact Bool.false_ne_true
  rw [apply]
  split
  case h_1 => rfl
  case h_2 hsome => exact absurd (by rw [hsome]; rfl) hnot

theorem slot_apply_assignAt (h : (s.frames.getAt? (s.chain k) d name).isSome = true) (ht : s.ancestor? k d = some t)
    (value : Value) : s.frames.Slot (s.apply (.assignAt k d name value)).frames t name value := by
  rw [apply]
  split
  case h_1 hnone =>
    have hsome : (s.frames.assignAt? (s.chain k) d name value).isSome = true := Frames.isSome_assignAt?_iff.2 h
    rw [hnone] at hsome
    cases hsome
  case h_2 frames hsome =>
    obtain ⟨i, hi, hslot⟩ := Frames.slot_of_assignAt? hsome
    cases hi.symm.trans ht
    exact hslot

theorem apply_assign_of_none (h : s.frames.get? (s.chain k) name = none) (value : Value) :
    s.apply (.assign k name value) = s := by
  have hnone := Frames.assign?_eq_none h value
  rw [apply]
  split
  case h_1 => rfl
  case h_2 hsome => cases hnone.symm.trans hsome

theorem apply_assign_of_nearest (h : s.frames.Nearest (s.chain k) name d) (value : Value) :
    s.apply (.assign k name value) = s.apply (.assignAt k d name value) := by
  have heq := Frames.assign?_of_nearest h value
  rw [apply, apply]
  split
  case h_1 hnone =>
    split
    case h_1 => rfl
    case h_2 hsome => cases hnone.symm.trans (heq.trans hsome)
  case h_2 frames hsome =>
    split
    case h_1 hnone => cases hnone.symm.trans (heq.symm.trans hsome)
    case h_2 frames' hsome' =>
      cases hsome.symm.trans (heq.trans hsome')
      rfl

theorem chains_apply_assignAt (s : Scopes) (k d : Nat) (name : String) (value : Value) :
    (s.apply (.assignAt k d name value)).chains = s.chains := by
  rw [apply]
  split
  · rfl
  · rfl

theorem isSome_assign? (value : Value) :
    (s.frames.assign? (s.chain k) name value).isSome = (s.frames.get? (s.chain k) name).isSome := by
  cases hget : s.frames.get? (s.chain k) name with
  | none => rw [Frames.assign?_eq_none hget, Option.isSome_none, Option.isSome_none]
  | some v =>
    obtain ⟨d, hd⟩ := Frames.exists_nearest (Frames.isSome_get?_iff.1 (Option.isSome_iff_exists.2 ⟨v, hget⟩))
    rw [Frames.assign?_of_nearest hd, Option.isSome_some]
    exact Frames.isSome_assignAt?_iff.2 hd.1

/-- In every store that can be built, from every scope: a distance leads to one scope and its own binding. Walking
outward finds the binding at the least distance, for reading and for assigning. An assignment that succeeds changes
the one slot, and one that fails changes nothing. -/
theorem addressing (changes : List Change) (k : Nat) (name : String) (value : Value) :
    let s := build changes
    (∀ d, (s.chain k).ancestor? d = (s.ancestor? k d).map s.chain ∧
      s.frames.getAt? (s.chain k) d name = (s.ancestor? k d).bind (s.frames.read · name)) ∧
    ((s.frames.get? (s.chain k) name).isSome = true ↔ ∃ d, (s.frames.getAt? (s.chain k) d name).isSome = true) ∧
    (∀ d, s.frames.Nearest (s.chain k) name d →
      s.frames.get? (s.chain k) name = s.frames.getAt? (s.chain k) d name ∧
        s.frames.assign? (s.chain k) name value = s.frames.assignAt? (s.chain k) d name value ∧
        s.apply (.assign k name value) = s.apply (.assignAt k d name value)) ∧
    (s.frames.assign? (s.chain k) name value).isSome = (s.frames.get? (s.chain k) name).isSome ∧
    (s.frames.get? (s.chain k) name = none → s.apply (.assign k name value) = s) ∧
    ∀ d, ((s.frames.assignAt? (s.chain k) d name value).isSome = true ↔
        (s.frames.getAt? (s.chain k) d name).isSome = true) ∧
      (s.frames.getAt? (s.chain k) d name = none → s.apply (.assignAt k d name value) = s) ∧
      ∀ t, s.ancestor? k d = some t → (s.frames.getAt? (s.chain k) d name).isSome = true →
        s.frames.Slot (s.apply (.assignAt k d name value)).frames t name value ∧
          (s.apply (.assignAt k d name value)).chains = s.chains := by
  intro s
  refine ⟨fun d => ⟨s.ancestor?_chain k d, s.getAt?_chain k d name⟩, Frames.isSome_get?_iff, fun d hd => ?_,
    isSome_assign? value, fun h => apply_assign_of_none h value, fun d => ⟨Frames.isSome_assignAt?_iff, ?_, ?_⟩⟩
  · exact ⟨Frames.get?_of_nearest hd, Frames.assign?_of_nearest hd value, apply_assign_of_nearest hd value⟩
  · exact fun h => apply_assignAt_of_none h value
  · exact fun t ht h => ⟨slot_apply_assignAt h ht value, s.chains_apply_assignAt k d name value⟩

/-- Two scopes inside a third. One of them has a variable of the same name as the outermost. -/
def shadowing : List Change :=
  [.new none, .define 0 "x" (.bool true), .new (some 0), .define 1 "x" .nil, .new (some 0)]

/-- From the scope that shadows the name the assignment stays there, from the other it reaches the outermost. -/
theorem addressing_shadowing :
    (build shadowing).frames.Slot ((build shadowing).apply (.assign 1 "x" (.bool false))).frames 1 "x"
      (.bool false) ∧
    (build shadowing).frames.Slot ((build shadowing).apply (.assign 2 "x" (.bool false))).frames 0 "x"
      (.bool false) := by
  have hinner : (build shadowing).frames.Nearest ((build shadowing).chain 1) "x" 0 := ⟨rfl, nofun⟩
  have houter : (build shadowing).frames.Nearest ((build shadowing).chain 2) "x" 1 := by
    refine ⟨rfl, fun k hk => ?_⟩
    obtain rfl : k = 0 := by omega
    rfl
  obtain ⟨-, -, hnear, -, -, hslot⟩ := addressing shadowing 1 "x" (.bool false)
  obtain ⟨-, -, hnear', -, -, hslot'⟩ := addressing shadowing 2 "x" (.bool false)
  rw [(hnear 0 hinner).2.2, (hnear' 1 houter).2.2]
  exact ⟨((hslot 0).2.2 1 rfl rfl).1, ((hslot' 1).2.2 0 rfl rfl).1⟩

end Scopes

end Lox
