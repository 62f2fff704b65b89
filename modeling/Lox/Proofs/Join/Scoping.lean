import Lox.Proofs.Join.Reading
import Lox.Proofs.Scope.Events

/-!
# Analysing two programs as one

Scope analysis keeps nothing from one statement at the top to the next but distances and warnings. So the analysis
of two programs, one after the other, gives each identity the distance that the analysis of its own program gives
to the one in its place.
-/

namespace Lox
open Scoping

/-! ## Identities in the same places -/

/-- The identities of two programs in the same places, and lines `c` further down. -/
def Matching.inPlace (c : Nat) (p q : List Stmt) : Matching where
  node i j := (i, j) ∈ (Stmt.nodesAll p).zip (Stmt.nodesAll q)
  line k l := l = k + c

/-- In lists without repetition a place is known by either entry. -/
theorem zip_unique {xs ys : List Nat} (hx : xs.Nodup) (hy : ys.Nodup) {i j i' j' : Nat}
    (h : (i, j) ∈ xs.zip ys) (h' : (i', j') ∈ xs.zip ys) : i = i' ↔ j = j' := by
  induction xs generalizing ys with
  | nil => cases h
  | cons x xs ih =>
    cases ys with
    | nil => cases h
    | cons y ys =>
      obtain ⟨hxs, hx⟩ := List.nodup_cons.1 hx
      obtain ⟨hys, hy⟩ := List.nodup_cons.1 hy
      rw [List.zip_cons_cons] at h h'
      rcases List.mem_cons.1 h with heq | h
      · cases heq
        rcases List.mem_cons.1 h' with heq' | h'
        · cases heq'
          exact ⟨fun _ => rfl, fun _ => rfl⟩
        · obtain ⟨hi', hj'⟩ := List.of_mem_zip h'
          constructor
          · intro heq
            exact absurd (heq ▸ hi') hxs
          · intro heq
            exact absurd (heq ▸ hj') hys
      · obtain ⟨hi, hj⟩ := List.of_mem_zip h
        rcases List.mem_cons.1 h' with heq' | h'
        · cases heq'
          constructor
          · intro heq
            exact absurd (heq ▸ hi) hxs
          · intro heq
            exact absurd (heq ▸ hj) hys
        · exact ih hx hy h h'

section

variable {c : Nat} {p q : List Stmt}

theorem Stmt.MatchedAll.inPlace (h : Stmt.MatchedAll (.lower c) p q) :
    Stmt.MatchedAll (.inPlace c p q) p q := by
  have hnodes : List.Forall₂ (Matching.inPlace c p q).node (Stmt.nodesAll p) (Stmt.nodesAll q) := by
    rw [List.forall₂_iff_zip]
    exact ⟨h.nodes.length_eq, fun hij => hij⟩
  exact h.retarget (ρ := .lower c) (σ := .inPlace c p q) (fun _ _ hkl => hkl) hnodes

theorem Scoping.abreast_inPlace (hp : (Stmt.nodesAll p).Nodup) (hq : (Stmt.nodesAll q).Nodup) :
    Scoping.Abreast (.inPlace c p q) (fun _ _ => True) c where
  line h := h
  node := zip_unique hp hq
  error _ _ := trivial

/-! ## Programs at the top -/

/-- Nothing is in scope and nothing was at fault. -/
structure Scoping.Analysis.Clear (a : Analysis) : Prop where
  scopes : a.scopes = []
  errors : a.errors = []

/-- Statements at the top leave no name in scope. -/
theorem Stmt.scopes_resolveAll {a : Analysis} (h : a.scopes = []) (ctx : Context) (ss : List Stmt) :
    (Stmt.resolveAll ctx ss a).scopes = [] := by
  have ho := Stmt.outlines_resolveAll ctx ss a
  rw [h] at ho
  have hnil : ∀ names : List String, Outline.bindAll names (outlines []) = [] := by
    intro names
    induction names with
    | nil => rfl
    | cons name rest ih => exact ih
  rw [hnil] at ho
  exact List.map_eq_nil_iff.1 ho

/-- The same program twice, where its identities have no distances yet. -/
theorem Stmt.MatchedAll.resolve_inPlace (h : Stmt.MatchedAll (.lower c) p q)
    (hp : (Stmt.nodesAll p).Nodup) (hq : (Stmt.nodesAll q).Nodup) {a a' : Analysis} (ha : a.Clear)
    (ha' : a'.Clear) (hd : ∀ i ∈ Stmt.nodesAll p, a.distances[i]? = none)
    (hd' : ∀ j ∈ Stmt.nodesAll q, a'.distances[j]? = none) :
    (Stmt.resolveAll {} p a).Matched (.inPlace c p q) (fun _ _ => True) c a.warnings a'.warnings
      (Stmt.resolveAll {} q a') := by
  refine h.inPlace.resolve (Scoping.abreast_inPlace hp hq) {} ⟨?_, ?_, ?_, [], ?_, ?_⟩
  · rw [ha.scopes, ha'.scopes]
    rfl
  · intro i j hij
    obtain ⟨hi, hj⟩ := List.of_mem_zip hij
    rw [hd i hi, hd' j hj]
  · rw [ha.errors, ha'.errors]
    exact .nil
  · rw [List.append_nil]
  · exact (List.append_nil _).symm

end

theorem Stmt.resolveAll_append (ctx : Context) (ss ts : List Stmt) (a : Analysis) :
    Stmt.resolveAll ctx (ss ++ ts) a = Stmt.resolveAll ctx ts (Stmt.resolveAll ctx ss a) := by
  induction ss generalizing a with
  | nil => rfl
  | cons s rest ih => exact ih (s.resolve ctx a)

/-- What the analysis of a joined program says. -/
structure AnalysedJoined (c : Nat) (p₁ p₂ q₁ q₂ : List Stmt) (a₁ a₂ a : Analysis) : Prop where
  errors : a.errors = []
  first {i j : Nat} : (Matching.inPlace 0 p₁ q₁).node i j → a.distances[j]? = a₁.distances[i]?
  second {i j : Nat} : (Matching.inPlace c p₂ q₂).node i j → a.distances[j]? = a₂.distances[i]?

/-- Two programs that pass the analysis pass it as one. -/
theorem Stmt.analyse_join {c : Nat} {p₁ p₂ q₁ q₂ : List Stmt} (h₁ : Stmt.MatchedAll (.lower 0) p₁ q₁)
    (h₂ : Stmt.MatchedAll (.lower c) p₂ q₂) (hp₁ : (Stmt.nodesAll p₁).Nodup)
    (hp₂ : (Stmt.nodesAll p₂).Nodup) (hq : (Stmt.nodesAll (q₁ ++ q₂)).Nodup) {d d₂ : Distances}
    (hd₁ : ∀ i ∈ Stmt.nodesAll p₁, d[i]? = none) (hd₂ : ∀ i ∈ Stmt.nodesAll p₂, d₂[i]? = none)
    (hd : ∀ j ∈ Stmt.nodesAll (q₁ ++ q₂), d[j]? = none)
    (he₁ : (Stmt.analyse p₁ d).errors = []) (he₂ : (Stmt.analyse p₂ d₂).errors = []) :
    AnalysedJoined c p₁ p₂ q₁ q₂ (Stmt.analyse p₁ d) (Stmt.analyse p₂ d₂)
      (Stmt.analyse (q₁ ++ q₂) d) := by
  rw [Stmt.nodesAll_append] at hq hd
  obtain ⟨hq₁, hq₂, hapart⟩ := List.nodup_append.1 hq
  obtain ⟨hdq₁, hdq₂⟩ := List.forall_mem_append.1 hd
  have hstart : ∀ d : Distances, ({ distances := d } : Analysis).Clear := fun _ => ⟨rfl, rfl⟩
  -- the first part, with the second still to come
  have hm₁ := h₁.resolve_inPlace hp₁ hq₁ (hstart d) (hstart d) hd₁ hdq₁
  have hclear : (Stmt.resolveAll {} q₁ { distances := d }).Clear := by
    refine ⟨Stmt.scopes_resolveAll rfl {} q₁, ?_⟩
    have herrors := hm₁.errors
    rw [show (Stmt.resolveAll {} p₁ { distances := d }).errors = [] from he₁] at herrors
    exact List.forall₂_nil_left_iff.1 herrors
  -- the second part, which finds its identities as they were before the first
  have hfresh : ∀ j ∈ Stmt.nodesAll q₂,
      (Stmt.resolveAll {} q₁ { distances := d }).distances[j]? = none := by
    intro j hj
    rw [Stmt.getElem?_resolveAll_of_not_mem fun hj₁ => hapart j hj₁ j hj rfl]
    exact hdq₂ j hj
  have hm₂ := h₂.resolve_inPlace hp₂ hq₂ (hstart d₂) hclear hd₂ hfresh
  have happend := Stmt.resolveAll_append {} q₁ q₂ { distances := d }
  refine ⟨?_, fun {i j} hij => ?_, fun {i j} hij => ?_⟩
  · show (Stmt.resolveAll {} (q₁ ++ q₂) { distances := d }).errors = []
    have herrors := hm₂.errors
    rw [show (Stmt.resolveAll {} p₂ { distances := d₂ }).errors = [] from he₂] at herrors
    rw [happend]
    exact List.forall₂_nil_left_iff.1 herrors
  · show (Stmt.resolveAll {} (q₁ ++ q₂) { distances := d }).distances[j]? = _
    have hj := (List.of_mem_zip hij).2
    rw [happend, Stmt.getElem?_resolveAll_of_not_mem fun hj₂ => hapart j hj j hj₂ rfl]
    exact hm₁.distances i j hij
  · show (Stmt.resolveAll {} (q₁ ++ q₂) { distances := d }).distances[j]? = _
    rw [happend]
    exact hm₂.distances i j hij

end Lox
