/-!
# Tables of names

A table gives a value to each of finitely many names. Inserting a name that is there already
replaces its value and nothing else.
-/

namespace Lox

abbrev Table (α : Type) := List (String × α)

namespace Table

variable {α : Type}

def get? : Table α → String → Option α
  | [], _ => none
  | (key, value) :: rest, name => if key = name then some value else get? rest name

def insert : Table α → String → α → Table α
  | [], name, value => [(name, value)]
  | (key, old) :: rest, name, value =>
    if key = name then (name, value) :: rest else (key, old) :: insert rest name value

def has (t : Table α) (name : String) : Bool := (t.get? name).isSome

def names (t : Table α) : List String := t.map (·.1)

/-- The names by code points. -/
def sortedNames (t : Table α) : List String := t.names.mergeSort (fun a b => !decide (b < a))

@[simp] theorem get?_nil (name : String) : get? ([] : Table α) name = none := rfl

/-- A table of one name has one value. -/
theorem eq_of_get?_singleton {key name : String} {value v : α} (h : get? [(key, value)] name = some v) :
    v = value := by
  rw [get?] at h
  split at h
  · exact (Option.some.inj h).symm
  · cases h

@[simp] theorem get?_insert_self (t : Table α) (name : String) (value : α) :
    (t.insert name value).get? name = some value := by
  induction t with
  | nil => simp [insert, get?]
  | cons entry rest ih =>
    by_cases h : entry.1 = name
    · simp [insert, get?, h]
    · simp [insert, get?, h, ih]

theorem get?_insert_of_ne (t : Table α) {name other : String} (h : name ≠ other) (value : α) :
    (t.insert name value).get? other = t.get? other := by
  induction t with
  | nil => simp [insert, get?, h]
  | cons entry rest ih =>
    by_cases hk : entry.1 = name
    · simp [insert, get?, hk, h]
    · by_cases ho : entry.1 = other
      · simp [insert, get?, ho, h.symm]
      · simp [insert, get?, hk, ho, ih]

theorem get?_insert (t : Table α) (name other : String) (value : α) :
    (t.insert name value).get? other = if name = other then some value else t.get? other := by
  by_cases h : name = other
  · subst h; simp
  · simp [h, get?_insert_of_ne t h]

theorem mem_names (t : Table α) (name : String) :
    name ∈ t.names ↔ (t.get? name).isSome = true := by
  induction t with
  | nil => simp [names]
  | cons entry rest ih =>
    obtain ⟨key, value⟩ := entry
    by_cases h : key = name
    · simp [names, get?, h]
    · rw [get?, if_neg h, ← ih]
      simp [names, Ne.symm h]

theorem mem_names_insert (t : Table α) (name other : String) (value : α) :
    other ∈ (t.insert name value).names ↔ other = name ∨ other ∈ t.names := by
  rw [mem_names, mem_names, get?_insert]
  by_cases h : name = other
  · simp [h]
  · simp [h, Ne.symm h]

/-- No name is in a table twice if it is made by insertion. -/
theorem nodup_names_insert {t : Table α} (h : t.names.Nodup) (name : String) (value : α) :
    (t.insert name value).names.Nodup := by
  induction t with
  | nil => simp [insert, names]
  | cons entry rest ih =>
    obtain ⟨key, old⟩ := entry
    obtain ⟨hkey, hrest⟩ := List.nodup_cons.1 h
    unfold insert
    split
    case isTrue heq => exact heq ▸ h
    case isFalse hne =>
      refine List.nodup_cons.2 ⟨fun hmem => ?_, ih hrest⟩
      exact ((mem_names_insert rest name key value).1 hmem).elim hne hkey

theorem get?_eq_some_iff {t : Table α} (h : t.names.Nodup) {name : String} {value : α} :
    t.get? name = some value ↔ (name, value) ∈ t := by
  induction t with
  | nil => simp
  | cons entry rest ih =>
    obtain ⟨key, old⟩ := entry
    obtain ⟨hkey, hrest⟩ := List.nodup_cons.1 h
    rw [get?, List.mem_cons]
    split
    case isTrue heq =>
      subst heq
      refine ⟨fun hv => .inl (by rw [Option.some.inj hv]), fun hv => ?_⟩
      rcases hv with hv | hv
      · cases hv
        rfl
      · exact absurd (List.mem_map_of_mem hv) hkey
    case isFalse hne =>
      rw [ih hrest]
      exact ⟨.inr, fun hv => hv.resolve_left fun heq => hne (Prod.ext_iff.1 heq).1.symm⟩

end Table
end Lox
