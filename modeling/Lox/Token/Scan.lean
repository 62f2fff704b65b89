import Lox.Diagnostic

/-!
# Reading text into tokens

`Token.scan` reads a text from left to right, at each place the longest lexeme that starts there.
It yields a token or an error for each lexeme, skips blanks and comments, and ends with the token
`eof`. Lines are counted from one.
-/

namespace Lox

/-- One outcome of scanning: a token, or an error that took its place. -/
abbrev Item := Except Error Token

namespace Scan

def isLetter (c : Char) : Bool := c.isAlpha || c == '_'

def isWordRest (c : Char) : Bool := isLetter c || c.isDigit

def newlines (cs : List Char) : Nat := cs.count '\n'

/-- The mark of one character. -/
def mark? : Char → Option Symbol
  | '(' => some .leftParen
  | ')' => some .rightParen
  | '\x7b' => some .leftBrace
  | '\x7d' => some .rightBrace
  | ',' => some .comma
  | '.' => some .dot
  | '-' => some .minus
  | '+' => some .plus
  | ';' => some .semicolon
  | '*' => some .star
  | '/' => some .slash
  | '!' => some .bang
  | '=' => some .equal
  | '<' => some .less
  | '>' => some .greater
  | _ => none

/-- The mark of a character and an equals sign. -/
def markEqual? : Char → Option Symbol
  | '!' => some .bangEqual
  | '=' => some .equalEqual
  | '<' => some .lessEqual
  | '>' => some .greaterEqual
  | _ => none

def decimalValue (digits : List Char) : Nat :=
  digits.foldl (fun n c => 10 * n + (c.toNat - '0'.toNat)) 0

/-- The binary64 number nearest to `digits.fraction`. -/
def numberOf (digits fraction : List Char) : Float :=
  Float.ofScientific (decimalValue (digits ++ fraction)) true fraction.length

/-- What starts at a character: something to skip or one item, with the text it was read from and
the line on which that text ends. -/
structure Piece where
  item : Option Item
  text : List Char
  line : Nat

def skipped (text : List Char) (line : Nat) : Piece := ⟨none, text, line⟩

def found (kind : Kind) (text : List Char) (line : Nat) : Piece :=
  ⟨some (.ok ⟨kind, String.ofList text, line⟩), text, line⟩

def failed (fault : LexicalFault) (text : List Char) (line : Nat) : Piece :=
  ⟨some (.error (.lexical line fault)), text, line⟩

/-- A string runs to the next quote, over line ends too. -/
def stringPiece (line : Nat) (cs : List Char) : Piece :=
  let contents := cs.takeWhile (· ≠ '"')
  let line := line + newlines contents
  match cs.dropWhile (· ≠ '"') with
  | [] => failed .unterminatedString ('"' :: contents) line
  | quote :: _ =>
    found (.string (String.ofList contents)) ('"' :: contents ++ [quote]) line

/-- A number has a fraction only if a digit follows the point. -/
def numberPiece (line : Nat) (cs : List Char) : Piece :=
  let digits := cs.takeWhile Char.isDigit
  match cs.dropWhile Char.isDigit with
  | '.' :: rest =>
    match rest.takeWhile Char.isDigit with
    | [] => found (.number (numberOf digits [])) digits line
    | fraction => found (.number (numberOf digits fraction)) (digits ++ '.' :: fraction) line
  | _ => found (.number (numberOf digits [])) digits line

def wordKind (text : List Char) : Kind :=
  match Keyword.ofWord? (String.ofList text) with
  | some k => .keyword k
  | none => .identifier

/-- A mark, the longer of two, or a character that starts nothing. -/
def symbolPiece (line : Nat) (c : Char) (cs : List Char) : Piece :=
  match cs, markEqual? c with
  | '=' :: _, some s => found (.symbol s) [c, '='] line
  | _, _ =>
    match mark? c with
    | some s => found (.symbol s) [c] line
    | none => failed (.unexpectedCharacter c) [c] line

/-- The piece that starts at `c`, before `cs`. -/
def piece (line : Nat) (c : Char) (cs : List Char) : Piece :=
  if c = ' ' ∨ c = '\r' ∨ c = '\t' then skipped [c] line
  else if c = '\n' then skipped [c] (line + 1)
  else if c = '/' ∧ cs.head? = some '/' then skipped (c :: cs.takeWhile (· ≠ '\n')) line
  else if c = '"' then stringPiece line cs
  else if c.isDigit then numberPiece line (c :: cs)
  else if isLetter c then
    let text := c :: cs.takeWhile isWordRest
    found (wordKind text) text line
  else symbolPiece line c cs

def eofToken (line : Nat) : Token := ⟨.eof, "", line⟩

/-- Reads pieces until the text is used up. A piece takes at least one character, so the length of
the text is enough `fuel`. -/
def items : Nat → Nat → List Char → List Item
  | fuel + 1, line, c :: cs =>
    let p := piece line c cs
    let rest := items fuel p.line ((c :: cs).drop p.text.length)
    match p.item with
    | some item => item :: rest
    | none => rest
  | _, line, _ => [.ok (eofToken line)]

/-! ## Pieces are read from the front of the text -/

theorem stringPiece_text (line : Nat) (cs : List Char) :
    (stringPiece line cs).text <+: '"' :: cs := by
  have hcs : cs.takeWhile (· ≠ '"') ++ cs.dropWhile (· ≠ '"') = cs := List.takeWhile_append_dropWhile
  unfold stringPiece
  cases hd : cs.dropWhile (· ≠ '"') with
  | nil => simpa [failed] using List.takeWhile_prefix _
  | cons quote rest =>
    rw [hd] at hcs
    refine ⟨rest, ?_⟩
    simp only [found, List.cons_append, List.append_assoc, List.nil_append, hcs]

theorem numberPiece_text (line : Nat) (cs : List Char) : (numberPiece line cs).text <+: cs := by
  have hcs : cs.takeWhile Char.isDigit ++ cs.dropWhile Char.isDigit = cs :=
    List.takeWhile_append_dropWhile
  unfold numberPiece
  split
  · next rest hd =>
    split
    · exact List.takeWhile_prefix _
    · have hf : rest.takeWhile Char.isDigit ++ rest.dropWhile Char.isDigit = rest :=
        List.takeWhile_append_dropWhile
      rw [hd] at hcs
      refine ⟨rest.dropWhile Char.isDigit, ?_⟩
      simp only [found, List.append_assoc, List.cons_append, hf, hcs]
  · exact List.takeWhile_prefix _

theorem symbolPiece_text (line : Nat) (c : Char) (cs : List Char) :
    (symbolPiece line c cs).text <+: c :: cs := by
  unfold symbolPiece
  split
  · next rest _ _ => exact ⟨rest, rfl⟩
  · split <;> exact ⟨_, rfl⟩

/-- A piece is the text from the place at which it starts. -/
theorem piece_text (line : Nat) (c : Char) (cs : List Char) : (piece line c cs).text <+: c :: cs := by
  unfold piece
  split
  · exact ⟨cs, rfl⟩
  split
  · exact ⟨cs, rfl⟩
  split
  · exact (List.cons_prefix_cons).2 ⟨rfl, List.takeWhile_prefix _⟩
  split
  · next hc => subst hc; exact stringPiece_text line cs
  split
  · exact numberPiece_text line (c :: cs)
  split
  · exact (List.cons_prefix_cons).2 ⟨rfl, List.takeWhile_prefix _⟩
  exact symbolPiece_text line c cs

/-- A piece is never empty. -/
theorem piece_text_ne_nil (line : Nat) (c : Char) (cs : List Char) : (piece line c cs).text ≠ [] := by
  unfold piece
  split
  · simp [skipped]
  split
  · simp [skipped]
  split
  · simp [skipped]
  split
  · unfold stringPiece
    split <;> simp [failed, found]
  split
  · next hd =>
    unfold numberPiece
    split
    · split <;> simp [found, hd]
    · simp [found, hd]
  split
  · simp [found]
  unfold symbolPiece
  split
  · simp [found]
  · split <;> simp [found, failed]

/-! ## What an item can be -/

/-- An item of a text that is not its end. -/
inductive Lexed : Item → Prop
  | word (text : List Char) (line : Nat) : Lexed (.ok ⟨wordKind text, String.ofList text, line⟩)
  | other {t : Token} : (∀ k, t.kind ≠ .keyword k) → t.kind ≠ .identifier → t.kind ≠ .eof → Lexed (.ok t)
  | fault {line : Nat} {fault : LexicalFault} : (∀ wording, fault ≠ .custom wording) →
      Lexed (.error (.lexical line fault))

theorem piece_lexed {line : Nat} {c : Char} {cs : List Char} {item : Item}
    (h : (piece line c cs).item = some item) : Lexed item := by
  unfold piece at h
  split at h
  · cases h
  split at h
  · cases h
  split at h
  · cases h
  split at h
  · unfold stringPiece at h
    split at h <;> cases h
    · exact .fault nofun
    · exact .other nofun nofun nofun
  split at h
  · unfold numberPiece at h
    split at h
    · split at h <;> cases h <;> exact .other nofun nofun nofun
    · cases h
      exact .other nofun nofun nofun
  split at h
  · cases h
    exact .word _ _
  unfold symbolPiece at h
  split at h
  · cases h
    exact .other nofun nofun nofun
  · split at h <;> cases h
    · exact .other nofun nofun nofun
    · exact .fault nofun

theorem items_lexed {fuel line : Nat} {cs : List Char} {item : Item} (h : item ∈ items fuel line cs) :
    Lexed item ∨ ∃ last, item = .ok (eofToken last) := by
  induction fuel generalizing line cs with
  | zero => exact .inr ⟨line, List.mem_singleton.1 h⟩
  | succ fuel ih =>
    cases cs with
    | nil => exact .inr ⟨line, List.mem_singleton.1 h⟩
    | cons c cs =>
      rw [items] at h
      split at h
      case h_1 hitem =>
        rcases List.mem_cons.1 h with rfl | h
        · exact .inl (piece_lexed hitem)
        · exact ih h
      case h_2 => exact ih h

/-- Fuel beyond the length of the text changes nothing. -/
theorem items_of_length_le (fuel line : Nat) (cs : List Char) (h : cs.length ≤ fuel) :
    items fuel line cs = items cs.length line cs := by
  induction fuel using Nat.strongRecOn generalizing line cs with
  | _ fuel ih =>
    match fuel, cs with
    | 0, cs => rw [List.length_eq_zero_iff.1 (Nat.le_zero.1 h)]; rfl
    | fuel + 1, [] => rfl
    | fuel + 1, c :: cs =>
      have hpos := List.length_pos_iff.2 (piece_text_ne_nil line c cs)
      have hlen : ((c :: cs).drop (piece line c cs).text.length).length ≤ cs.length := by
        simp only [List.length_drop, List.length_cons]; omega
      have hfuel : cs.length ≤ fuel := by simpa using h
      have hl := ih fuel (by omega) (piece line c cs).line _ (Nat.le_trans hlen hfuel)
      have hr := ih cs.length (Nat.lt_succ_of_le hfuel) (piece line c cs).line _ hlen
      simp only [items, List.length_cons]
      rw [hl, hr]

end Scan

/-- The tokens and lexical errors of a text, in order, up to the token `eof`. -/
def Token.scan (source : String) : List Item :=
  Scan.items source.length 1 source.toList

def Item.tokens (items : List Item) : List Token :=
  items.filterMap fun | .ok t => some t | .error _ => none

def Item.errors (items : List Item) : List Error :=
  items.filterMap fun | .ok _ => none | .error e => some e

theorem Item.lexed_of_mem_tokens {source : String} {t : Token} (h : t ∈ Item.tokens (Token.scan source)) :
    Scan.Lexed (.ok t) ∨ ∃ last, t = Scan.eofToken last := by
  obtain ⟨item, hi, ht⟩ := List.mem_filterMap.1 h
  cases item with
  | error e => cases ht
  | ok u =>
    cases ht
    exact (Scan.items_lexed hi).imp_right fun ⟨last, hlast⟩ => ⟨last, Except.ok.inj hlast⟩

end Lox
