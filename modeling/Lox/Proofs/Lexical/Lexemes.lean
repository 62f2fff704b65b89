import Lox.Proofs.Lines

/-!
# Lexemes

The lexical grammar by itself: which texts are tokens, and of which kind. It says nothing of what stands next to
a text, so several lexemes may start at one place, as `or` and `orchid` do. Where neither a blank nor a comment
starts, the scanner reads the longest of them, and reports a fault only if there is none.
-/

namespace Lox

/-- How a mark is written. -/
def Symbol.spelling : Symbol → List Char
  | leftParen => ['('] | rightParen => [')'] | leftBrace => ['\x7b'] | rightBrace => ['\x7d']
  | comma => [','] | dot => ['.'] | minus => ['-'] | plus => ['+'] | semicolon => [';']
  | slash => ['/'] | star => ['*'] | bang => ['!'] | bangEqual => ['!', '='] | equal => ['=']
  | equalEqual => ['=', '='] | greater => ['>'] | greaterEqual => ['>', '='] | less => ['<']
  | lessEqual => ['<', '=']

/-- The text is a token of this kind. -/
inductive Lexeme : List Char → Kind → Prop
  | mark (s : Symbol) : Lexeme s.spelling (.symbol s)
  | keyword {text : List Char} (k : Keyword) : k.word = String.ofList text → Lexeme text (.keyword k)
  | identifier {c : Char} {cs : List Char} : Scan.isLetter c = true →
      (∀ x ∈ cs, Scan.isWordRest x = true) → (∀ k : Keyword, k.word ≠ String.ofList (c :: cs)) →
      Lexeme (c :: cs) .identifier
  | integer {digits : List Char} : digits ≠ [] → (∀ x ∈ digits, x.isDigit = true) →
      Lexeme digits (.number (Scan.numberOf digits []))
  | decimal {digits fraction : List Char} : digits ≠ [] → (∀ x ∈ digits, x.isDigit = true) →
      fraction ≠ [] → (∀ x ∈ fraction, x.isDigit = true) →
      Lexeme (digits ++ '.' :: fraction) (.number (Scan.numberOf digits fraction))
  | string {contents : List Char} : '"' ∉ contents →
      Lexeme ('"' :: (contents ++ ['"'])) (.string (String.ofList contents))

def IsBlank (c : Char) : Prop := c = ' ' ∨ c = '\t' ∨ c = '\r' ∨ c = '\n'

/-- Something that no token comes from starts here. -/
inductive StartsGap : List Char → Prop
  | blank {c : Char} {cs : List Char} : IsBlank c → StartsGap (c :: cs)
  | comment {cs : List Char} : StartsGap ('/' :: '/' :: cs)

/-! ## Words -/

/-- Every keyword has the form of an identifier. -/
theorem Keyword.word_shape {k : Keyword} {text : List Char} (h : k.word = String.ofList text) :
    ∃ c cs, text = c :: cs ∧ Scan.isLetter c = true ∧ ∀ x ∈ cs, Scan.isWordRest x = true := by
  have hlist : k.word.toList = text := by rw [h, String.toList_ofList]
  have hshape : (k.word.toList.head?.any Scan.isLetter && k.word.toList.tail.all Scan.isWordRest) =
      true := by
    cases k <;> decide
  rw [hlist] at hshape
  cases text with
  | nil => cases hshape
  | cons c cs =>
    obtain ⟨hc, hcs⟩ := Bool.and_eq_true_iff.1 hshape
    exact ⟨c, cs, rfl, hc, List.all_eq_true.1 hcs⟩

namespace Scan

theorem wordKind_of_keyword {k : Keyword} {text : List Char} (h : k.word = String.ofList text) :
    wordKind text = .keyword k := by
  have hfind : Keyword.ofWord? (String.ofList text) = some k := by
    rw [← h]
    cases k <;> decide
  unfold wordKind
  rw [hfind]

theorem lexeme_word {c : Char} {cs : List Char} (hc : isLetter c = true)
    (hcs : ∀ x ∈ cs, isWordRest x = true) : Lexeme (c :: cs) (wordKind (c :: cs)) := by
  by_cases h : ∃ k : Keyword, k.word = String.ofList (c :: cs)
  · obtain ⟨k, hk⟩ := h
    rw [wordKind_of_keyword hk]
    exact .keyword k hk
  · have hnone : Keyword.ofWord? (String.ofList (c :: cs)) = none :=
      List.find?_eq_none.2 fun k _ hk => h ⟨k, beq_iff_eq.1 hk⟩
    unfold wordKind
    rw [hnone]
    exact .identifier hc hcs fun k hk => h ⟨k, hk⟩

/-! ## What starts with which character -/

theorem isDigit_of_isLetter {c : Char} (h : isLetter c = true) : c.isDigit = false := by
  simp only [isLetter, Char.isAlpha, Char.isUpper, Char.isLower, Bool.or_eq_true, Bool.and_eq_true,
    decide_eq_true_eq, beq_iff_eq] at h
  simp only [Char.isDigit, Bool.and_eq_false_iff, decide_eq_false_iff_not]
  rcases h with (⟨h₁, h₂⟩ | ⟨h₁, h₂⟩) | rfl
  · grind
  · grind
  · decide

theorem not_blank_of_letter {c : Char} (h : isLetter c = true) : ¬ IsBlank c := by
  rintro (rfl | rfl | rfl | rfl) <;> exact absurd h (by decide)

theorem not_blank_of_digit {c : Char} (h : c.isDigit = true) : ¬ IsBlank c := by
  rintro (rfl | rfl | rfl | rfl) <;> exact absurd h (by decide)

theorem piece_blank {c : Char} (h : IsBlank c) (line : Nat) (cs : List Char) :
    (piece line c cs).item = none ∧ (piece line c cs).text = [c] := by
  rcases h with rfl | rfl | rfl | rfl <;> exact ⟨rfl, rfl⟩

theorem piece_quote (line : Nat) (cs : List Char) : piece line '"' cs = stringPiece line cs := rfl

/-- Where no blank and no comment starts. -/
theorem piece_of_not_startsGap {c : Char} {cs : List Char} (h : ¬ StartsGap (c :: cs)) (line : Nat) :
    piece line c cs = if c = '"' then stringPiece line cs
      else if c.isDigit then numberPiece line (c :: cs)
      else if isLetter c then
        found (wordKind (c :: cs.takeWhile isWordRest)) (c :: cs.takeWhile isWordRest) line
      else symbolPiece line c cs := by
  have hblank : ¬ IsBlank c := fun hc => h (.blank hc)
  have hspace : ¬ (c = ' ' ∨ c = '\r' ∨ c = '\t') := by
    unfold IsBlank at hblank
    tauto
  have hline : c ≠ '\n' := fun hc => hblank (.inr (.inr (.inr hc)))
  have hslash : ¬ (c = '/' ∧ cs.head? = some '/') := by
    rintro ⟨rfl, hhead⟩
    obtain ⟨rest, rfl⟩ := List.head?_eq_some_iff.1 hhead
    exact h .comment
  unfold piece
  rw [if_neg hspace, if_neg hline, if_neg hslash]

theorem piece_letter {c : Char} (hc : isLetter c = true) (line : Nat) (cs : List Char) :
    piece line c cs =
      found (wordKind (c :: cs.takeWhile isWordRest)) (c :: cs.takeWhile isWordRest) line := by
  have hquote : c ≠ '"' := by
    rintro rfl
    cases hc
  have hgap : ¬ StartsGap (c :: cs) := by
    rintro (hb | _)
    · exact not_blank_of_letter hc hb
    · cases hc
  rw [piece_of_not_startsGap hgap, if_neg hquote, if_neg (by rw [isDigit_of_isLetter hc]; nofun),
    if_pos hc]

theorem piece_digit {c : Char} (hc : c.isDigit = true) (line : Nat) (cs : List Char) :
    piece line c cs = numberPiece line (c :: cs) := by
  have hquote : c ≠ '"' := by
    rintro rfl
    cases hc
  have hgap : ¬ StartsGap (c :: cs) := by
    rintro (hb | _)
    · exact not_blank_of_digit hc hb
    · cases hc
  rw [piece_of_not_startsGap hgap, if_neg hquote, if_pos hc]

/-! ## What is read is a lexeme -/

theorem spelling_of_mark? {c : Char} {s : Symbol} (h : mark? c = some s) : s.spelling = [c] := by
  unfold mark? at h
  split at h <;> cases h <;> rfl

theorem spelling_of_markEqual? {c : Char} {s : Symbol} (h : markEqual? c = some s) :
    s.spelling = [c, '='] := by
  unfold markEqual? at h
  split at h <;> cases h <;> rfl

/-- A mark of one character is read unless an equals sign makes it longer. -/
theorem symbolPiece_of_mark? {c : Char} {cs : List Char} {s : Symbol} (hs : mark? c = some s) {line : Nat}
    (h : cs.head? ≠ some '=' ∨ markEqual? c = none) : symbolPiece line c cs = found (.symbol s) [c] line := by
  unfold symbolPiece
  split
  case h_1 hlong => simp [hlong] at h
  case h_2 => simp only [hs]

theorem symbolPiece_of_none {c : Char} {cs : List Char} (hs : mark? c = none) {line : Nat} :
    symbolPiece line c cs = failed (.unexpectedCharacter c) [c] line := by
  have hlong : markEqual? c = none := by
    unfold markEqual?
    split
    case h_5 => rfl
    all_goals cases hs
  simp only [symbolPiece, hs, hlong]

theorem numberPiece_lexeme {c : Char} (hc : c.isDigit = true) (line : Nat) (cs : List Char) :
    ∃ text kind, numberPiece line (c :: cs) = found kind text line ∧ Lexeme text kind := by
  have hdigits : ∀ ds : List Char, ∀ x ∈ ds.takeWhile Char.isDigit, x.isDigit = true :=
    fun _ _ hx => List.mem_takeWhile_imp hx
  have hne : (c :: cs).takeWhile Char.isDigit ≠ [] := by
    rw [List.takeWhile_cons, if_pos hc]
    exact List.cons_ne_nil _ _
  unfold numberPiece
  dsimp only
  split
  case h_1 rest _ =>
    split
    case h_1 => exact ⟨_, _, rfl, .integer hne (hdigits _)⟩
    case h_2 hfraction => exact ⟨_, _, rfl, .decimal hne (hdigits _) hfraction (hdigits _)⟩
  case h_2 => exact ⟨_, _, rfl, .integer hne (hdigits _)⟩

/-! ## What a lexeme is read as -/

section

variable {p : Char → Bool} {front : List Char} (hp : ∀ x ∈ front, p x = true)
include hp

theorem length_le_takeWhile {cs : List Char} (h : front <+: cs) :
    front.length ≤ (cs.takeWhile p).length := by
  obtain ⟨rest, rfl⟩ := h
  rw [List.takeWhile_append_of_pos hp, List.length_append]
  exact Nat.le_add_right _ _

theorem span_front {x : Char} (hx : p x = false) (rest : List Char) :
    (front ++ x :: rest).takeWhile p = front ∧ (front ++ x :: rest).dropWhile p = x :: rest := by
  rw [List.takeWhile_append_of_pos hp, List.dropWhile_append_of_pos hp]
  simp [hx]

end

theorem stringPiece_closed {contents : List Char} (h : '"' ∉ contents) (line : Nat)
    (rest : List Char) :
    stringPiece line (contents ++ '"' :: rest) = found (.string (String.ofList contents))
      ('"' :: (contents ++ ['"'])) (line + newlines contents) := by
  have hall : ∀ x ∈ contents, decide (x ≠ '"') = true :=
    fun x hx => decide_eq_true fun hq => h (hq ▸ hx)
  obtain ⟨htake, hdrop⟩ := span_front hall (decide_eq_false fun hq => hq rfl) rest
  unfold stringPiece
  rw [htake, hdrop]
  rfl

theorem numberPiece_digits {digits : List Char} (hd : ∀ x ∈ digits, x.isDigit = true) (line : Nat) :
    numberPiece line digits = found (.number (numberOf digits [])) digits line := by
  have htake : digits.takeWhile Char.isDigit = digits := List.takeWhile_eq_self_iff.2 hd
  have hdrop : digits.dropWhile Char.isDigit = [] := List.dropWhile_eq_nil_iff.2 hd
  unfold numberPiece
  rw [htake, hdrop]

/-- A point belongs to the number if a digit follows. -/
theorem numberPiece_fraction {digits fraction : List Char} (hd : ∀ x ∈ digits, x.isDigit = true)
    (hf : fraction ≠ []) (hfd : ∀ x ∈ fraction, x.isDigit = true) (line : Nat) (rest : List Char) :
    numberPiece line (digits ++ '.' :: (fraction ++ rest)) =
      found (.number (numberOf digits (fraction ++ rest.takeWhile Char.isDigit)))
        (digits ++ '.' :: (fraction ++ rest.takeWhile Char.isDigit)) line := by
  obtain ⟨htake, hdrop⟩ := span_front hd (by decide : Char.isDigit '.' = false) (fraction ++ rest)
  have hmore : (fraction ++ rest).takeWhile Char.isDigit =
      fraction ++ rest.takeWhile Char.isDigit := List.takeWhile_append_of_pos hfd
  unfold numberPiece
  simp only [htake, hdrop, hmore]
  split
  case h_1 hnil => exact absurd (List.append_eq_nil_iff.1 hnil).1 hf
  case h_2 => rfl

/-! ## No lexeme is longer -/

theorem length_le_word {c : Char} {front cs : List Char} (hc : isLetter c = true)
    (hfront : ∀ x ∈ front, isWordRest x = true) (h : front <+: cs) (line : Nat) :
    (c :: front).length ≤ (piece line c cs).text.length := by
  rw [piece_letter hc]
  exact Nat.succ_le_succ (length_le_takeWhile hfront h)

theorem takeWhile_length_le_numberPiece (line : Nat) (cs : List Char) :
    (cs.takeWhile Char.isDigit).length ≤ (numberPiece line cs).text.length := by
  unfold numberPiece
  dsimp only
  split
  · split
    · exact Nat.le_refl _
    · exact (List.sublist_append_left _ _).length_le
  · exact Nat.le_refl _

theorem length_le_symbolPiece (s : Symbol) {c : Char} {cs : List Char} (h : s.spelling <+: c :: cs)
    (line : Nat) : s.spelling.length ≤ (piece line c cs).text.length := by
  have hone : 1 ≤ (piece line c cs).text.length :=
    List.length_pos_iff.2 (piece_text_ne_nil line c cs)
  cases s with
  | bangEqual | equalEqual | greaterEqual | lessEqual =>
    obtain ⟨rest, hrest⟩ := h
    cases hrest
    exact Nat.le_refl 2
  | _ => exact hone

end Scan

open Scan

/-- No lexeme that starts at a place is longer than what the scanner reads there. -/
theorem Lexeme.length_le_piece {text : List Char} {kind : Kind} (h : Lexeme text kind) {c : Char}
    {cs : List Char} (hp : text <+: c :: cs) (line : Nat) :
    text.length ≤ (piece line c cs).text.length := by
  cases h with
  | mark s => exact length_le_symbolPiece s hp line
  | keyword k hk =>
    obtain ⟨x, xs, rfl, hx, hxs⟩ := Keyword.word_shape hk
    obtain ⟨rfl, hfront⟩ := List.cons_prefix_cons.1 hp
    exact length_le_word hx hxs hfront line
  | identifier hx hxs _ =>
    obtain ⟨rfl, hfront⟩ := List.cons_prefix_cons.1 hp
    exact length_le_word hx hxs hfront line
  | integer hne hd =>
    cases text with
    | nil => exact absurd rfl hne
    | cons x xs =>
      have hc : c.isDigit = true := by
        rw [← (List.cons_prefix_cons.1 hp).1]
        exact hd x List.mem_cons_self
      rw [piece_digit hc]
      exact Nat.le_trans (length_le_takeWhile hd hp) (takeWhile_length_le_numberPiece line _)
  | @decimal digits fraction hne hd hf hfd =>
    obtain ⟨rest, hrest⟩ := hp
    rw [List.append_assoc, List.cons_append] at hrest
    cases digits with
    | nil => exact absurd rfl hne
    | cons x xs =>
      have hc : c.isDigit = true := by
        rw [← (List.cons.inj hrest).1]
        exact hd x List.mem_cons_self
      rw [piece_digit hc, ← hrest, numberPiece_fraction hd hf hfd]
      simp only [found, List.length_append, List.length_cons]
      omega
  | @string contents hq =>
    obtain ⟨rest, hrest⟩ := hp
    rw [List.cons_append, List.append_assoc, List.singleton_append] at hrest
    cases hrest
    rw [piece_quote, stringPiece_closed hq]
    exact Nat.le_refl _

theorem piece_word {c : Char} {cs : List Char} (hc : isLetter c = true)
    (hcs : ∀ x ∈ cs, isWordRest x = true) (line : Nat) :
    piece line c cs = found (wordKind (c :: cs)) (c :: cs) line := by
  rw [piece_letter hc, List.takeWhile_eq_self_iff.2 hcs]

/-- A lexeme on its own is read whole, as what it is. -/
theorem Lexeme.piece_eq {c : Char} {cs : List Char} {kind : Kind} (h : Lexeme (c :: cs) kind)
    (line : Nat) : ∃ last, piece line c cs = found kind (c :: cs) last := by
  generalize htext : c :: cs = text at h
  cases h with
  | mark s =>
    cases s <;> cases htext <;> exact ⟨line, rfl⟩
  | keyword k hk =>
    obtain ⟨x, xs, rfl, hx, hxs⟩ := Keyword.word_shape hk
    cases htext
    rw [piece_word hx hxs, wordKind_of_keyword hk]
    exact ⟨line, rfl⟩
  | identifier hx hxs hk =>
    cases htext
    have hnone : wordKind (c :: cs) = .identifier := by
      unfold wordKind
      split
      case h_1 k hfind =>
        unfold Keyword.ofWord? at hfind
        have hword := List.find?_some hfind
        exact absurd (beq_iff_eq.1 hword) (hk k)
      case h_2 => rfl
    rw [piece_word hx hxs, hnone]
    exact ⟨line, rfl⟩
  | integer hne hd =>
    subst htext
    rw [piece_digit (hd c List.mem_cons_self), numberPiece_digits hd]
    exact ⟨line, rfl⟩
  | @decimal digits fraction hne hd hf hfd =>
    cases digits with
    | nil => exact absurd rfl hne
    | cons x xs =>
      obtain ⟨rfl, rfl⟩ := List.cons.inj htext
      have hread := numberPiece_fraction hd hf hfd line []
      rw [List.append_nil, List.takeWhile_nil, List.append_nil] at hread
      rw [piece_digit (hd c List.mem_cons_self)]
      exact ⟨line, hread⟩
  | string hq =>
    cases htext
    rw [piece_quote, stringPiece_closed hq]
    exact ⟨_, rfl⟩

theorem Lexeme.ne_nil {text : List Char} {kind : Kind} (h : Lexeme text kind) : text ≠ [] := by
  cases h with
  | mark s => cases s <;> exact List.cons_ne_nil _ _
  | keyword k hk =>
    obtain ⟨x, xs, rfl, -, -⟩ := Keyword.word_shape hk
    exact List.cons_ne_nil _ _
  | identifier _ _ _ => exact List.cons_ne_nil _ _
  | integer hne _ => exact hne
  | decimal _ _ _ _ => exact List.append_ne_nil_of_right_ne_nil _ (List.cons_ne_nil _ _)
  | string _ => exact List.cons_ne_nil _ _

/-- A text is a token of one kind at most. -/
theorem Lexeme.kind_unique {text : List Char} {kind kind' : Kind} (h : Lexeme text kind)
    (h' : Lexeme text kind') : kind' = kind := by
  cases text with
  | nil => exact absurd rfl h.ne_nil
  | cons c cs =>
    obtain ⟨last, hread⟩ := h.piece_eq 0
    obtain ⟨last', hread'⟩ := h'.piece_eq 0
    rw [hread] at hread'
    cases hread'
    rfl

/-! ## Piece by piece -/

namespace Scan

/-- One piece is read, and then the rest. -/
theorem items_piece {line : Nat} {c : Char} {cs : List Char} {p : Piece} (hp : piece line c cs = p)
    (rest : List Char) (hrest : p.text ++ rest = c :: cs) :
    items (c :: cs).length line (c :: cs) = p.item.toList ++ items rest.length p.line rest := by
  subst hp
  have hpos := List.length_pos_iff.2 (piece_text_ne_nil line c cs)
  have hlength : (piece line c cs).text.length + rest.length = cs.length + 1 := by
    rw [← List.length_append, hrest, List.length_cons]
  have hdrop : (c :: cs).drop (piece line c cs).text.length = rest := by rw [← hrest, List.drop_left]
  rw [List.length_cons, items_cons, hdrop, items_of_length_le cs.length _ rest (by omega)]

end Scan
end Lox
