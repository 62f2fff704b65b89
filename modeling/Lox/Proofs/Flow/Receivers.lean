import Lox.Proofs.Flow.Sessions

/-!
# `this` and `super` are always found

A reference to `this` or `super` that is evaluated has a distance, and at that distance the frame
of an object or of a superclass. So the machine never misses them.
-/

namespace Lox
open Scoping
namespace Trace

variable {s : State} {ref : Reference} {m : Machine} {v : Visit}

/-- Where a scope has given a name a value, a frame binds it that is not that of the globals. -/
theorem Agrees.read_local (h : Agrees s.log ref m v) (hg : Good s) {k : Nat} {o : Outline}
    {name : String} (hk : (outlines v.scopes)[k]? = some o) (ho : o name = some true) :
    ∃ i w, i ≠ Machine.globalFrame ∧ m.frames.read i name = some w ∧
      m.frames.getAt? m.env k name = some w := by
  obtain ⟨w, hw⟩ := Option.isSome_iff_exists.1 (h.held k o name hk ho)
  have hlt : k < v.sites.length := by
    obtain ⟨hk', -⟩ := List.getElem?_eq_some_iff.1 hk
    rw [outlines, List.length_map] at hk'
    rw [h.depth]
    exact hk'
  obtain ⟨i, outer, henv, he⟩ := h.chain.entered (List.getElem?_eq_getElem hlt)
  have hi : m.env[k]? = some i := by
    have hd := congrArg List.head? henv
    rwa [List.head?_drop, List.head?_cons] at hd
  refine ⟨i, w, Nat.ne_of_gt (hg.entered he).1, ?_, hw⟩
  rw [Frames.getAt?, hi] at hw
  exact hw

/-- In a furnished list of scopes, the scope that a reserved word is found in has given it a value. -/
theorem Furnished.found {os : List Outline} (h : Furnished (os.map Outline.reserved)) {name : String}
    (hname : name = "this" ∨ name = "super") {d : Nat} (hd : Outline.distance name os = some d) :
    ∃ o, os[d]? = some o ∧ o name = some true := by
  obtain ⟨hlt, hsome, -⟩ := List.findIdx?_eq_some_iff_getElem.1 hd
  have hmem : os[d].reserved ∈ os.map Outline.reserved := List.mem_map_of_mem (List.getElem_mem hlt)
  have hset := h.settled hmem
  refine ⟨os[d], List.getElem?_eq_getElem hlt, ?_⟩
  obtain ⟨b, hb⟩ := Option.isSome_iff_exists.1 hsome
  cases b with
  | true => exact hb
  | false =>
    rcases hname with rfl | rfl
    · exact absurd hb hset.1
    · exact absurd hb hset.2

theorem not_missed (hg : Good s) {m₁ : Machine} (ho : Orderly ⟨m₁, s.log⟩)
    (hr : .referred ref m ∈ s.log) : ¬ Missed ref m := by
  obtain ⟨v, hv⟩ := hg.referred hr
  obtain ⟨p, distances, hp, hvisit⟩ := hv.known
  have hl := hg.programs hp
  have hhoused := Stmt.housed_of_visitsProgram hl.wellFormed hl.regular hvisit
  obtain ⟨_, hscopes, -⟩ := hhoused.scopes
  have hfurnished := hscopes.furnished
  have hclean := (Stmt.clean_of_analyse hl.wellFormed hl.regular hl.faultless hvisit).2
  have hreserved := ho.referred hr
  unfold Missed
  rw [← hv.about]
  cases hacc : v.ref.access with
  | read => exact id
  | write => exact id
  | receiver =>
    obtain ⟨d, hd⟩ := Option.isSome_iff_exists.1 (hclean (.inl hacc))
    have hfound := Visit.distance_eq_some hd
    rw [hhoused.receiver hacc] at hfound
    obtain ⟨o, hk, htrue⟩ := Furnished.found hfurnished (.inl rfl) hfound
    obtain ⟨i, w, -, -, hget⟩ := hv.read_local hg hk htrue
    intro hmiss
    refine hmiss w (Eval.lookUp_local (d := d) ?_ ?_)
    · rw [hv.about, hv.distance, hd]
    · rw [hhoused.receiver hacc]
      exact hget
  | parent =>
    obtain ⟨d, hd⟩ := Option.isSome_iff_exists.1 (hclean (.inr hacc))
    have hfound := Visit.distance_eq_some hd
    rw [hhoused.parent hacc] at hfound
    obtain ⟨o, hk, htrue⟩ := Furnished.found hfurnished (.inr rfl) hfound
    obtain ⟨i, w, hi, hread, hget⟩ := hv.read_local hg hk htrue
    obtain ⟨c, rfl⟩ := hreserved.parent hi hread
    -- the object is in the scope just inside
    have hk' : ((outlines v.scopes).map Outline.reserved)[d]? = some o.reserved := by
      rw [List.getElem?_map, hk]
      rfl
    obtain ⟨j, q, rfl, hj, hthis⟩ := hfurnished.inside hk' (by rw [Outline.reserved, htrue]; rfl)
    rw [List.getElem?_map, Option.map_eq_some_iff] at hj
    obtain ⟨o', hj, rfl⟩ := hj
    obtain ⟨i', w', hi', hread', hget'⟩ := hv.read_local hg hj hthis
    obtain ⟨id, c', rfl⟩ := hreserved.receiver hi' hread'
    intro hmiss
    refine hmiss (j + 1) ?_ ⟨⟨c, hget⟩, id, c', hget'⟩
    rw [hv.about, hv.distance, hd]

end Trace
end Lox
