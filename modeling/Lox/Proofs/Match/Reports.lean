import Lox.Proofs.Match.Steps

/-!
# What is reported of a text

The errors of a text that does not pass are of three kinds, in wordings of the language's own: faults
of characters, of the grammar and of scopes. That a superclass is no name is not among them, since
the grammar leaves no other.
-/

namespace Lox

/-- An error that reading or analysing a text can report. -/
def Error.Found : Error → Prop
  | .lexical _ fault => ∀ wording, fault ≠ .custom wording
  | .syntactic _ _ fault => ∀ wording, fault ≠ .custom wording
  | .scoping _ _ fault => Scoping.isFound fault = true
  | _ => False

theorem Error.Found.isStatic {e : Error} (h : e.Found) : e.isStatic = true := by
  cases e with
  | lexical _ _ => rfl
  | syntactic _ _ _ => rfl
  | scoping _ _ _ => rfl
  | _ => exact h.elim

theorem Item.found_of_mem_errors {source : String} {e : Error}
    (h : e ∈ Item.errors (Token.scan source)) : e.Found := by
  obtain ⟨item, hi, he⟩ := List.mem_filterMap.1 h
  cases item with
  | ok t => cases he
  | error e' =>
    cases he
    rcases Scan.items_lexed hi with hl | ⟨last, hlast⟩
    · cases hl with
      | fault hfault => exact hfault
    · cases hlast

/-! A text read twice, from the same identity on, is read into the same. So a reading that goes
abreast with itself says something about one. -/

theorem forall_of_forall₂_self {α : Type} {P : α → Prop} {xs : List α}
    (h : List.Forall₂ (fun x _ => P x) xs xs) : ∀ x ∈ xs, P x :=
  (@List.forall₂_same _ (fun x _ => P x) xs).1 h

def Matching.same : Matching := ⟨Eq, Eq⟩

theorem Parse.abreast_found : Parse.Abreast Matching.same fun e _ => e.Found where
  node_succ h := congrArg (· + 1) h
  error _ hf := hf

theorem Scoping.abreast_found : Scoping.Abreast Matching.same (fun e _ => e.Found) 0 where
  line h := h.symm
  node := by
    rintro i _ i' _ rfl rfl
    exact Iff.rfl
  error _ hf := hf

theorem Machine.found_of_compile {m : Machine} {source : String} {es : List Error}
    (h : (m.compile source).1 = .error es) : ∀ e ∈ es, e.Found := by
  obtain ⟨hread, -⟩ := Stmt.read_matched Parse.abreast_found (fun _ => rfl) source
    (fun _ => Item.found_of_mem_errors) (i := m.nextNode) (j := m.nextNode) rfl
  unfold Machine.compile at h
  generalize Stmt.read source m.nextNode = r at hread h
  obtain ⟨result, next⟩ := r
  cases result with
  | error es' =>
    cases h
    cases hread with
    | error hes => exact forall_of_forall₂_self hes
  | ok program =>
    cases hread with
    | ok hp =>
      have ha := hp.resolve Scoping.abreast_found {}
        (.start fun i j hij => show m.distances[j]? = m.distances[i]? by rw [show i = j from hij])
      unfold Machine.analyse at h
      dsimp only at h
      split at h
      · cases h
      case h_2 e rest _ _ herrors =>
        injection herrors with herrors _
        cases h
        have hfound := forall_of_forall₂_self ha.errors
        rwa [show (Stmt.resolveAll {} program { distances := m.distances }).errors = e :: rest from
          herrors] at hfound

end Lox
