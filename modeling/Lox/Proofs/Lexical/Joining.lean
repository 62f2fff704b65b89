import Lox.Proofs.Lexical.Splitting

/-!
# Texts put together

What stands below a text is read as if it stood alone, unless a string is left open above it. And tokens written out
again with one blank between them are read as the same tokens: a blank ends every lexeme but a string, and a string
ends by itself.
-/

namespace Lox
open Scan

/-! ## One text below another -/

namespace Scan

/-- Only what starts with a quote can be left open, and then it goes on to the end of the text. -/
theorem piece_open {line : Nat} {c : Char} {cs : List Char} (h : ¬ Closed (piece line c cs).item) :
    c = '"' ∧ '"' ∉ cs := by
  by_cases hgap : StartsGap (c :: cs)
  · obtain ⟨rest, hrest⟩ := piece_text line c cs
    rw [(piece_gap hgap line hrest).1] at h
    exact absurd trivial h
  · obtain ⟨rest, hrest⟩ := piece_text line c cs
    obtain ⟨r, htext, hitem, hbefore⟩ := piece_reading hgap line hrest
    rw [hitem] at h
    cases hbefore with
    | token _ _ => exact absurd trivial h
    | unexpected _ _ => exact absurd trivial h
    | @unterminated contents hq =>
      rw [← htext, List.append_nil] at hrest
      obtain ⟨rfl, rfl⟩ := List.cons.inj hrest
      exact ⟨rfl, hq⟩

theorem stringPiece_open {cs : List Char} (h : '"' ∉ cs) (line : Nat) :
    stringPiece line cs = failed .unterminatedString ('"' :: cs) (line + newlines cs) := by
  have hall : ∀ x ∈ cs, decide (x ≠ '"') = true := fun x hx => decide_eq_true fun hq => h (hq ▸ hx)
  unfold stringPiece
  rw [List.takeWhile_eq_self_iff.2 hall, List.dropWhile_eq_nil_iff.2 hall]

/-- An open string takes in the line below it, so it ends otherwise than it did: with a quote, or further down. -/
theorem stringPiece_below {cs : List Char} (h : '"' ∉ cs) (line : Nat) (ds : List Char) :
    ∃ item, (stringPiece line (cs ++ '\n' :: ds)).item = some item ∧
      item ≠ .error (.lexical (line + newlines cs) .unterminatedString) := by
  by_cases hd : '"' ∈ ds
  · obtain ⟨front, back, rfl, hfront⟩ := List.eq_append_cons_of_mem hd
    have hopen : '"' ∉ cs ++ '\n' :: front := by simp [h, hfront]
    have hclosed := stringPiece_closed hopen line back
    rw [List.append_assoc, List.cons_append] at hclosed
    exact ⟨_, congrArg Piece.item hclosed, nofun⟩
  · have hopen : '"' ∉ cs ++ '\n' :: ds := by simp [h, hd]
    refine ⟨_, congrArg Piece.item (stringPiece_open hopen line), fun heq => ?_⟩
    simp only [Except.error.injEq, Error.lexical.injEq, newlines_append, and_true] at heq
    have hmore : newlines ('\n' :: ds) = newlines ds + 1 := List.count_cons_self
    omega

theorem forall_closed_iff {items : List Item} : (∀ item ∈ items, Closed (some item)) ↔
    ∀ line, .error (.lexical line .unterminatedString) ∉ items := by
  constructor
  · intro h line hmem
    exact h _ hmem
  · intro h item hmem
    unfold Closed
    split
    case h_1 line heq =>
      cases heq
      exact h line hmem
    case h_2 => trivial

/-- Where a string is left open, what stands below the text is not read as if it stood alone. -/
theorem items_append_ne (line : Nat) (cs ds : List Char) (later : List Item)
    (h : ∃ item ∈ items cs.length line cs, ¬ Closed (some item)) :
    items (cs ++ '\n' :: ds).length line (cs ++ '\n' :: ds) ≠
      (items cs.length line cs).dropLast ++ later := by
  induction hn : cs.length using Nat.strongRecOn generalizing line cs with
  | _ n ih =>
    cases cs with
    | nil =>
      obtain ⟨item, hmem, hopen⟩ := h
      rw [List.mem_singleton.1 hmem] at hopen
      exact absurd trivial hopen
    | cons c cs =>
      obtain ⟨rest, hrest⟩ := piece_text line c cs
      have hpos := List.length_pos_iff.2 (piece_text_ne_nil line c cs)
      have halone := items_piece rfl rest hrest
      rw [← hn, halone]
      by_cases hclosed : Closed (piece line c cs).item
      · -- the same first piece in both texts, so the string is left open further on
        have hlater : ∃ item ∈ items rest.length (piece line c cs).line rest, ¬ Closed (some item) := by
          obtain ⟨item, hmem, hopen⟩ := h
          rw [halone] at hmem
          rcases List.mem_append.1 hmem with hmem | hmem
          · rw [Option.mem_toList.1 hmem] at hclosed
            exact absurd hclosed hopen
          · exact ⟨item, hmem, hopen⟩
        have hlength : (piece line c cs).text.length + rest.length = cs.length + 1 := by
          rw [← List.length_append, hrest, List.length_cons]
        have hbelow : (piece line c cs).text ++ (rest ++ '\n' :: ds) = c :: (cs ++ '\n' :: ds) := by
          rw [← List.append_assoc, hrest, List.cons_append]
        have hjoin := items_piece (piece_append hclosed ds) _ hbelow
        rw [List.cons_append, hjoin, List.dropLast_append_of_ne_nil (items_ne_nil _ _ _),
          List.append_assoc]
        intro heq
        refine ih rest.length ?_ _ rest hlater rfl (List.append_cancel_left heq)
        rw [List.length_cons] at hn
        omega
      · -- the first piece is the open string, and it is another one in the longer text
        obtain ⟨rfl, hq⟩ := piece_open hclosed
        have hopen := stringPiece_open hq line
        obtain ⟨item, hitem, hne⟩ := stringPiece_below hq line ds
        obtain ⟨rest', hrest'⟩ := piece_text line '"' (cs ++ '\n' :: ds)
        rw [piece_quote] at hrest hrest'
        rw [hopen] at hrest
        have hnil : rest = [] := List.append_cancel_left (hrest.trans (List.append_nil _).symm)
        rw [List.cons_append, items_piece (piece_quote _ _) rest' hrest', hitem, piece_quote, hopen, hnil]
        intro heq
        exact hne (List.cons.inj heq).1

end Scan

/-- A text below another is read as it is alone, some lines further down, if and only if no string is left open above
it. -/
theorem Token.scan_below_iff (first second : String) :
    ∃ items, Token.scan first = items ++ [.ok ⟨.eof, "", 1 + Scan.newlines first.toList⟩] ∧
      (Token.scan (first ++ "\n" ++ second) =
          items ++ (Token.scan second).map (Item.shift (1 + Scan.newlines first.toList)) ↔
        ∀ line, .error (.lexical line .unterminatedString) ∉ Token.scan first) := by
  obtain ⟨parts, -, -, hscan⟩ := splits_scan first
  have hitems : (Token.scan first).dropLast = Part.items [] parts := by rw [hscan, List.dropLast_concat]
  have hchars : (first ++ "\n" ++ second).toList = first.toList ++ '\n' :: second.toList := by simp
  refine ⟨Part.items [] parts, hscan, ?_⟩
  rw [← forall_closed_iff, ← hitems]
  constructor
  · intro hjoin
    by_contra hopen
    push Not at hopen
    unfold Token.scan at hjoin hopen
    rw [← String.length_toList] at hjoin hopen
    rw [← String.length_toList, hchars] at hjoin
    exact items_append_ne 1 _ _ _ hopen hjoin
  · intro hclosed
    rw [Token.scan_join first second hclosed, Nat.add_comm 1]

/-! ## Lexemes with blanks between them -/

section

variable {c : Char} {cs : List Char} {kind : Kind}

theorem Lexeme.not_startsGap (h : Lexeme (c :: cs) kind) : ¬ StartsGap (c :: cs) := by
  intro hgap
  obtain ⟨last, hread⟩ := h.piece_eq 0
  obtain ⟨rest, hrest⟩ := piece_text 0 c cs
  have hnone := (piece_gap hgap 0 hrest).1
  rw [hread] at hnone
  cases hnone

/-- A blank does not change what is read before it, unless that is a comment or a string without an end. -/
theorem Scan.piece_append_blank {x : Char} (hx : IsBlank x) (hgap : ¬ StartsGap (c :: cs)) {line : Nat}
    (hclosed : Closed (piece line c cs).item) (ds : List Char) :
    piece line c (cs ++ x :: ds) = piece line c cs := by
  have hrest : isWordRest x = false := by rcases hx with rfl | rfl | rfl | rfl <;> decide
  have hdigit : x.isDigit = false := by rcases hx with rfl | rfl | rfl | rfl <;> decide
  have hmarks : x ≠ '.' ∧ x ≠ '=' ∧ x ≠ '/' := by rcases hx with rfl | rfl | rfl | rfl <;> decide
  have hlonger : ¬ StartsGap (c :: (cs ++ x :: ds)) := by
    generalize htext : c :: (cs ++ x :: ds) = text
    rintro (hb | _)
    · cases htext
      exact hgap (.blank hb)
    · cases cs with
      | nil =>
        cases htext
        exact hmarks.2.2 rfl
      | cons y ys =>
        cases htext
        exact hgap .comment
  rw [piece_of_not_startsGap hgap] at hclosed ⊢
  rw [piece_of_not_startsGap hlonger, takeWhile_append_cons hrest]
  split at hclosed
  case isTrue hc => rw [if_pos hc, if_pos hc, stringPiece_append hclosed]
  case isFalse hc =>
    rw [if_neg hc, if_neg hc, symbolPiece_append hmarks.2.1, ← List.cons_append,
      numberPiece_append hdigit hmarks.1]

/-- A lexeme is read whole where a blank follows. -/
theorem Lexeme.piece_blank (h : Lexeme (c :: cs) kind) {x : Char} (hx : IsBlank x) (line : Nat)
    (ds : List Char) : ∃ last, piece line c (cs ++ x :: ds) = found kind (c :: cs) last := by
  obtain ⟨last, hread⟩ := h.piece_eq line
  have hclosed : Closed (piece line c cs).item := by
    rw [hread]
    trivial
  exact ⟨last, (piece_append_blank hx h.not_startsGap hclosed ds).trans hread⟩

end

/-- Every token but the last was read from a lexeme. -/
theorem Splits.lexeme {cs last : List Char} {parts : List Part} (h : Splits cs parts last)
    {before : List Char} {t : Token} (ht : .ok t ∈ Part.items before parts) :
    Lexeme t.lexeme.toList t.kind := by
  induction h generalizing before with
  | last _ => cases ht
  | next _ _ hr _ ih =>
    rcases List.mem_cons.1 ht with heq | ht
    · cases hr with
      | token hl _ =>
        cases heq
        rw [String.toList_ofList]
        exact hl
      | unexpected _ _ => cases heq
      | unterminated _ => cases heq
    · exact ih ht

/-- The same token, on whatever line it stands. -/
def Token.SameWord (t t' : Token) : Prop := t'.kind = t.kind ∧ t'.lexeme = t.lexeme

/-- Lexemes with a blank after each but the last are read one by one. -/
theorem Scan.items_spaced {tokens : List Token} (h : ∀ t ∈ tokens, Lexeme t.lexeme.toList t.kind)
    (line : Nat) :
    ∃ tokens' last, (let cs := [' '].intercalate (tokens.map (·.lexeme.toList))
        items cs.length line cs = tokens'.map .ok ++ [.ok (eofToken last)]) ∧
      List.Forall₂ Token.SameWord tokens tokens' := by
  induction tokens generalizing line with
  | nil => exact ⟨[], line, rfl, .nil⟩
  | cons t rest ih =>
    obtain ⟨ht, hrest⟩ := List.forall_mem_cons.1 h
    cases htext : t.lexeme.toList with
    | nil => exact absurd htext ht.ne_nil
    | cons c cs =>
      rw [htext] at ht
      have hlexeme : String.ofList (c :: cs) = t.lexeme := by rw [← htext, String.ofList_toList]
      cases rest with
      | nil =>
        obtain ⟨last, hread⟩ := ht.piece_eq line
        refine ⟨[⟨t.kind, t.lexeme, last⟩], last, ?_, .cons ⟨rfl, rfl⟩ .nil⟩
        have hitems := items_piece hread [] (List.append_nil _)
        simpa [htext, found, hlexeme, items] using hitems
      | cons u rest =>
        generalize hlater : [' '].intercalate ((u :: rest).map (·.lexeme.toList)) = later at ih
        have hjoin : [' '].intercalate ((t :: u :: rest).map (·.lexeme.toList)) =
            c :: (cs ++ ' ' :: later) := by
          rw [← hlater, List.map_cons, List.map_cons, List.intercalate_cons_cons, htext]
          simp
        obtain ⟨last, hread⟩ := ht.piece_blank (.inl rfl) line later
        obtain ⟨tokens', last', hitems', hsame⟩ := ih hrest last
        refine ⟨⟨t.kind, t.lexeme, last⟩ :: tokens', last', ?_, .cons ⟨rfl, rfl⟩ hsame⟩
        have hfirst := items_piece hread (' ' :: later) rfl
        have hblank : items (' ' :: later).length last (' ' :: later) = items later.length last later :=
          rfl
        rw [hjoin]
        dsimp only at hitems' ⊢
        rw [hfirst, found, hlexeme]
        dsimp only
        rw [hblank, hitems']
        rfl

theorem Item.exists_tokens {items : List Item} (h : Item.errors items = []) :
    ∃ tokens : List Token, items = tokens.map .ok := by
  induction items with
  | nil => exact ⟨[], rfl⟩
  | cons item rest ih =>
    cases item with
    | error e => cases h
    | ok t =>
      obtain ⟨tokens, rfl⟩ := ih h
      exact ⟨t :: tokens, rfl⟩

/-- The tokens of a text without faults, written out with one blank between them, are read again as they are: of the
same kinds, with the same literals, from the same lexemes, in the same order. -/
theorem Token.scan_respaced (source : String) (h : Item.errors (Token.scan source) = []) :
    ∃ tokens last, Token.scan source = tokens.map .ok ++ [.ok ⟨.eof, "", last⟩] ∧
      ∃ tokens' last', Token.scan (" ".intercalate (tokens.map (·.lexeme))) =
          tokens'.map .ok ++ [.ok ⟨.eof, "", last'⟩] ∧
        List.Forall₂ Token.SameWord tokens tokens' := by
  obtain ⟨parts, last, hsplits, hscan⟩ := splits_scan source
  have hparts : Item.errors (Part.items [] parts) = [] := by
    rw [hscan, Item.errors, List.filterMap_append] at h
    exact (List.append_eq_nil_iff.1 h).1
  obtain ⟨tokens, htokens⟩ := Item.exists_tokens hparts
  have hlexemes : ∀ t ∈ tokens, Lexeme t.lexeme.toList t.kind := by
    intro t ht
    have hmem : .ok t ∈ Part.items [] parts := htokens ▸ List.mem_map_of_mem ht
    exact hsplits.lexeme hmem
  obtain ⟨tokens', last', hitems, hsame⟩ := items_spaced hlexemes 1
  refine ⟨tokens, _, htokens ▸ hscan, tokens', last', ?_, hsame⟩
  unfold Token.scan
  rw [← String.length_toList, String.toList_intercalate, List.map_map]
  exact hitems

/-- Words, marks and a string that touch, and two tokens that a comment and a line end keep apart. -/
def crowdedText : String := "var a=1.5;print\"// \"/a==b.c//x\norbit"

theorem Token.scan_respaced_crowdedText :
    Item.errors (Token.scan crowdedText) = [] ∧
    ∃ tokens last, Token.scan crowdedText = tokens.map .ok ++ [.ok ⟨.eof, "", last⟩] ∧
      ∃ tokens' last', Token.scan (" ".intercalate (tokens.map (·.lexeme))) =
          tokens'.map .ok ++ [.ok ⟨.eof, "", last'⟩] ∧
        List.Forall₂ Token.SameWord tokens tokens' :=
  have hnone : Item.errors (Token.scan crowdedText) = [] := by decide +kernel
  ⟨hnone, Token.scan_respaced crowdedText hnone⟩

end Lox
