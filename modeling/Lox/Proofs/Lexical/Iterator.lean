import Lox.Proofs.Lexical.Cursor
import Lox.Proofs.Lexical.Splitting

/-!
# One item after another

Items are called for one by one. Each call reads pieces up to the next that is an item, and after the last there is
`eof` and then nothing, however often it is called for.
-/

namespace Lox

namespace Cursor

variable {source : String} {c : Cursor} {item : Item} {left : List Item}

/-- What is left to come: from between two characters, what the scanner of characters finds there; from behind the
end, nothing. -/
inductive Leaves (source : String) : Cursor → List Item → Prop
  | between {c : Cursor} {behind rest : List Char} : Between source c behind rest →
      Leaves source c (Scan.items rest.length c.line rest)
  | behind {c : Cursor} : source.utf8ByteSize < c.place → Leaves source c []

theorem leaves_first (source : String) : Leaves source first (Token.scan source) := by
  have hbetween : Between source first [] source.toList := ⟨rfl, rfl⟩
  rw [Token.scan, ← String.length_toList]
  exact .between hbetween

/-- Each round reads a piece, so the rounds last as long as there are more of them than bytes. -/
theorem Between.nextLoop {rounds : Nat} {behind rest : List Char} (h : Between source c behind rest)
    (hrounds : (octets rest).length < rounds) :
    ∃ item after left, Cursor.nextLoop source rounds c = .ok (some item, after) ∧
      Scan.items rest.length c.line rest = item :: left ∧ Leaves source after left := by
  induction rounds generalizing c behind rest with
  | zero => omega
  | succ rounds ih =>
    have hplace := h.place_add
    unfold Cursor.nextLoop
    cases rest with
    | nil =>
      rw [octets_nil, List.length_nil, Nat.add_zero] at hplace
      rw [if_neg (by omega), if_pos hplace]
      exact ⟨_, _, [], rfl, rfl, .behind (by dsimp only; omega)⟩
    | cons x cs =>
      obtain ⟨rest, hnext, hless, hitems⟩ := h.next h.item
      rw [if_pos (by omega), h.item, hitems]
      cases hfound : (Scan.piece c.line x cs).item with
      | some item => exact ⟨item, _, _, rfl, rfl, .between hnext⟩
      | none => exact ih hnext (by omega)

theorem Between.length_lt {behind rest : List Char} (h : Between source c behind rest) :
    (octets rest).length < source.utf8ByteSize + 1 := by
  have hplace := h.place_add
  omega

theorem Leaves.next (h : Leaves source c (item :: left)) :
    ∃ after, c.next source = .ok (some item, after) ∧ Leaves source after left := by
  generalize hall : item :: left = all at h
  cases h with
  | behind => cases hall
  | between h =>
    obtain ⟨item, after, left, hnext, hitems, hleaves⟩ := h.nextLoop h.length_lt
    cases hall.trans hitems
    exact ⟨after, hnext, hleaves⟩

/-- When nothing is left, nothing comes, and the cursor stays where it is. -/
theorem Leaves.next_nil (h : Leaves source c []) : c.next source = .ok (none, c) := by
  generalize hall : ([] : List Item) = all at h
  cases h with
  | behind h =>
    unfold Cursor.next Cursor.nextLoop
    rw [if_neg (by omega), if_neg (by omega)]
  | between h =>
    obtain ⟨_, _, _, -, hitems, -⟩ := h.nextLoop h.length_lt
    cases hall.trans hitems

/-- There is at most one item for each byte, and `eof`. -/
theorem Between.length_items {behind rest : List Char} (h : Between source c behind rest) :
    (Scan.items rest.length c.line rest).length ≤ (octets rest).length + 1 := by
  induction hn : (octets rest).length using Nat.strongRecOn generalizing c behind rest with
  | _ n ih =>
    cases rest with
    | nil => exact Nat.succ_le_succ (Nat.zero_le n)
    | cons x cs =>
      obtain ⟨rest, hnext, hless, hitems⟩ := h.next h.item
      have hlater := ih _ (hn ▸ hless) hnext rfl
      have hone : (Scan.piece c.line x cs).item.toList.length ≤ 1 := by
        cases (Scan.piece c.line x cs).item <;> simp
      rw [hitems, List.length_append]
      omega

theorem Leaves.items {calls : Nat} (h : Leaves source c left) (hcalls : left.length < calls) :
    Cursor.items source calls c = .ok left := by
  induction calls generalizing c left with
  | zero => omega
  | succ calls ih =>
    unfold Cursor.items
    cases left with
    | nil =>
      rw [h.next_nil]
      rfl
    | cons item left =>
      obtain ⟨after, hnext, hleaves⟩ := h.next
      rw [hnext]
      simp only [bind, Except.bind, ih hleaves (by simpa using hcalls), pure, Except.pure]

theorem Leaves.nth (h : Leaves source c left) (k : Nat) : Cursor.nth source k c = .ok left[k]? := by
  induction k generalizing c left with
  | zero =>
    unfold Cursor.nth
    cases left with
    | nil =>
      rw [h.next_nil]
      rfl
    | cons item left =>
      obtain ⟨after, hnext, -⟩ := h.next
      rw [hnext]
      rfl
  | succ k ih =>
    unfold Cursor.nth
    cases left with
    | nil =>
      rw [h.next_nil]
      exact ih h
    | cons item left =>
      obtain ⟨after, hnext, hleaves⟩ := h.next
      rw [hnext]
      exact ih hleaves

/-- Reading bytes never fails, and gives the items that reading characters gives. It would fail if a byte were asked
for at the end of the text, or a cut that is not from the boundary of one character to that of another. Each piece
starts at a boundary too, and is read to the end. -/
theorem scan_never_faults (source : String) :
    Cursor.scan source = .ok (Token.scan source) ∧
    (∀ c : Cursor, (∃ r, c.advance source = .ok r) ↔ c.place < source.utf8ByteSize) ∧
    (∀ first last, (∃ text, cut source first last = .ok text) ↔
      (first ≤ last ∧ last ≤ source.utf8ByteSize) ∧ IsBoundary source first ∧ IsBoundary source last) ∧
    ∀ c, Reaches source c → IsBoundary source c.place ∧ c.place ≤ source.utf8ByteSize ∧
      (c.place < source.utf8ByteSize → ∃ item after, c.item source = .ok (item, after) ∧
        after.start = c.place ∧ c.place < after.place) := by
  refine ⟨?_, fun _ => advance_ok_iff source, fun _ _ => cut_ok_iff, ?_⟩
  · have hfirst : Between source first [] source.toList := ⟨rfl, rfl⟩
    have hbytes := hfirst.length_lt
    have hitems := hfirst.length_items
    rw [String.length_toList] at hitems
    exact (leaves_first source).items (Nat.lt_of_le_of_lt hitems (by omega))
  · intro c hreaches
    obtain ⟨behind, rest, hbetween⟩ := hreaches.between
    have hplace := hbetween.place_add
    have hboundary : IsBoundary source c.place := hbetween.place ▸ isBoundary_octets hbetween.text
    refine ⟨hboundary, hboundary.le_utf8ByteSize, fun hmore => ?_⟩
    cases rest with
    | nil => exact absurd hplace (Nat.ne_of_lt hmore)
    | cons x cs =>
      obtain ⟨rest, hnext, hless, -⟩ := hbetween.next hbetween.item
      have hafter := hnext.place_add
      refine ⟨_, _, hbetween.item, rfl, ?_⟩
      omega

end Cursor

open Scan

/-- Every text splits in one way. Called for one after another, the scanner yields an item for each of its readings, in
order, and then the end of the text on its last line, and nothing ever after that. -/
theorem Token.scan_splits (source : String) :
    ∃ parts last, Splits source.toList parts last ∧
      (∀ parts' last', Splits source.toList parts' last' → parts' = parts ∧ last' = last) ∧
      Token.scan source = Part.items [] parts ++
        [.ok ⟨.eof, "", 1 + Scan.newlines source.toList⟩] ∧
      (∀ k, Cursor.nth source k .first = .ok (Token.scan source)[k]?) ∧
      ∀ k, parts.length < k → Cursor.nth source k .first = .ok none := by
  obtain ⟨parts, last, hsplits, hscan⟩ := splits_scan source
  have hnth := (Cursor.leaves_first source).nth
  refine ⟨parts, last, hsplits, fun _ _ h' => h'.unique hsplits, hscan, hnth, fun k hk => ?_⟩
  rw [hnth, hscan, List.getElem?_eq_none]
  rw [List.length_append, Part.length_items, List.length_singleton]
  omega

end Lox
