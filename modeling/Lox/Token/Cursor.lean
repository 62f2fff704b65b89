import Lox.Token.Scan

/-!
# Reading the bytes of a text

`Cursor.scan` reads a text through its bytes. A cursor goes forward one byte at a time and looks at most one byte
further ahead, and lexemes are cut out of the text between two places it has been at. Every byte is taken for the
character of its number, so of a longer character it sees parts that are no character of the text.

A byte is read only where there is one, and a text is cut only between whole characters; anything else is a `Fault`,
which stops the reading.
-/

namespace Lox

/-- A place among the bytes of a text, the place at which the piece that is being read starts, and the line. -/
structure Cursor where
  start : Nat
  place : Nat
  line : Nat

namespace Cursor

inductive Fault where
  | noByte (place : Nat)
  | noCut (first last : Nat)
  deriving Repr, DecidableEq

/-- The place is between two characters of the text, or at one of its ends. -/
def IsBoundary (source : String) (place : Nat) : Prop := String.Pos.Raw.IsValid source ⟨place⟩

instance (source : String) (place : Nat) : Decidable (IsBoundary source place) :=
  inferInstanceAs (Decidable (String.Pos.Raw.IsValid source ⟨place⟩))

/-- The text between two places. -/
def cut (source : String) (first last : Nat) : Except Fault String :=
  if h : (first ≤ last ∧ last ≤ source.utf8ByteSize) ∧ IsBoundary source first ∧ IsBoundary source last then
    .ok (source.extract ⟨⟨first⟩, h.2.1⟩ ⟨⟨last⟩, h.2.2⟩)
  else .error (.noCut first last)

theorem cut_ok_iff {source : String} {first last : Nat} :
    (∃ text, cut source first last = .ok text) ↔
      (first ≤ last ∧ last ≤ source.utf8ByteSize) ∧ IsBoundary source first ∧ IsBoundary source last := by
  unfold cut
  split
  case isTrue h => exact ⟨fun _ => h, fun _ => ⟨_, rfl⟩⟩
  case isFalse h => exact ⟨fun ⟨_, hok⟩ => (nomatch hok), fun h' => absurd h' h⟩

variable (source : String)

def atEnd (c : Cursor) : Bool := source.utf8ByteSize ≤ c.place

/-- The bytes of a text, each as the character of its number. -/
def bytes : List Char := source.toByteArray.data.toList.map Char.ofUInt8

@[simp] theorem length_bytes : (bytes source).length = source.utf8ByteSize := by simp [bytes]

/-- The next byte, or zero at the end. -/
def peek (c : Cursor) : Char := (bytes source)[c.place]?.getD '\x00'

/-- The byte after the next, or zero if there is none. -/
def peekNext (c : Cursor) : Char := (bytes source)[c.place + 1]?.getD '\x00'

/-- Reads the next byte. -/
def advance (c : Cursor) : Except Fault (Char × Cursor) :=
  match (bytes source)[c.place]? with
  | some x => .ok (x, { c with place := c.place + 1 })
  | none => .error (.noByte c.place)

theorem place_of_advance {c next : Cursor} {x : Char} (h : c.advance source = .ok (x, next)) :
    c.place < source.utf8ByteSize ∧ next.place = c.place + 1 := by
  unfold advance at h
  split at h
  case h_1 hx =>
    cases h
    exact ⟨length_bytes source ▸ (List.getElem?_eq_some_iff.1 hx).1, rfl⟩
  case h_2 => cases h

theorem advance_ok_iff {c : Cursor} :
    (∃ r, c.advance source = .ok r) ↔ c.place < source.utf8ByteSize := by
  constructor
  · rintro ⟨⟨x, next⟩, h⟩
    exact (place_of_advance source h).1
  · intro h
    rw [← length_bytes] at h
    rw [advance, List.getElem?_eq_getElem h]
    exact ⟨_, rfl⟩

/-- Reads the next byte if it is the expected one. -/
def matchByte (expected : Char) (c : Cursor) : Except Fault (Bool × Cursor) :=
  if !c.atEnd source && c.peek source == expected then do
    let (_, c) ← c.advance source
    return (true, c)
  else return (false, c)

/-- Reads bytes as long as the next one satisfies `p`. The zero at the end has to fail it. -/
def skipWhile (p : Char → Bool) (c : Cursor) : Except Fault Cursor :=
  if p (c.peek source) then
    match _h : c.advance source with
    | .ok (_, next) => skipWhile p next
    | .error fault => .error fault
  else .ok c
termination_by source.utf8ByteSize - c.place
decreasing_by
  have := place_of_advance source _h
  omega

/-- Reads bytes up to the next quote or the end, and counts the lines that end there. -/
def skipString (c : Cursor) : Except Fault Cursor :=
  if !c.atEnd source && c.peek source != '"' then
    match _h : c.advance source with
    | .ok (x, next) => skipString { next with line := if x = '\n' then next.line + 1 else next.line }
    | .error fault => .error fault
  else .ok c
termination_by source.utf8ByteSize - c.place
decreasing_by
  have := place_of_advance source _h
  omega

/-- What a piece of the text is: nothing, a token of some kind, or a fault of the text. -/
abbrev Found := Option (Except LexicalFault Kind)

def string (c : Cursor) : Except Fault (Found × Cursor) := do
  let c ← c.skipString source
  if c.atEnd source then return (some (.error .unterminatedString), c)
  let (_, c) ← c.advance source
  return (some (.ok (.string (← cut source (c.start + 1) (c.place - 1)))), c)

/-- The number that is written as digits, with a point and more digits or without. -/
def numeral (text : List Char) : Float :=
  Scan.numberOf (text.takeWhile Char.isDigit) ((text.dropWhile Char.isDigit).drop 1)

def number (c : Cursor) : Except Fault (Found × Cursor) := do
  let c ← c.skipWhile source Char.isDigit
  let c ← if c.peek source == '.' && (c.peekNext source).isDigit then do
      let (_, c) ← c.advance source
      c.skipWhile source Char.isDigit
    else pure c
  return (some (.ok (.number (numeral (← cut source c.start c.place).toList))), c)

def word (c : Cursor) : Except Fault (Found × Cursor) := do
  let c ← c.skipWhile source Scan.isWordRest
  return (some (.ok (Scan.wordKind (← cut source c.start c.place).toList)), c)

/-- To the end of the line, which is not read. -/
def skipComment (c : Cursor) : Except Fault Cursor :=
  if c.place ≤ source.utf8ByteSize then
    .ok { c with place := c.place + (((bytes source).drop c.place).takeWhile (· ≠ '\n')).length }
  else .error (.noCut c.place source.utf8ByteSize)

/-- A whole character of which the first byte is `x` is skipped. -/
def unexpected (x : Char) (c : Cursor) : Except Fault (Found × Cursor) := do
  let rest ← cut source c.start source.utf8ByteSize
  let x := rest.toList.headD x
  return (some (.error (.unexpectedCharacter x)), { c with place := c.start + x.utf8Size })

/-- A mark, the longer of two, or a character that starts nothing. -/
def symbol (x : Char) (c : Cursor) : Except Fault (Found × Cursor) := do
  match Scan.mark? x, Scan.markEqual? x with
  | some short, some long =>
    let (isLong, c) ← c.matchByte source '='
    return (some (.ok (.symbol (if isLong then long else short))), c)
  | some s, none => return (some (.ok (.symbol s)), c)
  | none, _ => c.unexpected source x

/-- The piece that starts with the byte `x`, which has been read. -/
def piece (x : Char) (c : Cursor) : Except Fault (Found × Cursor) := do
  if x = ' ' ∨ x = '\r' ∨ x = '\t' then return (none, c)
  else if x = '\n' then return (none, { c with line := c.line + 1 })
  else if x = '/' then
    let (isComment, c) ← c.matchByte source '/'
    if isComment then return (none, ← c.skipComment source)
    else return (some (.ok (.symbol .slash)), c)
  else if x = '"' then c.string source
  else if x.isDigit then c.number source
  else if Scan.isLetter x then c.word source
  else c.symbol source x

def token (c : Cursor) : Except Fault (Found × Cursor) := do
  let (x, c) ← c.advance source
  c.piece source x

/-- Reads one piece and makes an item of it. -/
def item (c : Cursor) : Except Fault (Option Item × Cursor) := do
  let (found, c) ← token source { c with start := c.place }
  match found with
  | none => return (none, c)
  | some (.error fault) => return (some (.error (.lexical c.line fault)), c)
  | some (.ok kind) => return (some (.ok ⟨kind, ← cut source c.start c.place, c.line⟩), c)

/-- Reads pieces up to one that makes an item. At the end of the text that is `eof`, and the cursor goes on behind the
end, where there is nothing any more. -/
def nextLoop : Nat → Cursor → Except Fault (Option Item × Cursor)
  | 0, c => .ok (none, c)
  | rounds + 1, c =>
    if c.place < source.utf8ByteSize then do
      match ← c.item source with
      | (some item, c) => return (some item, c)
      | (none, c) => nextLoop rounds c
    else if c.place = source.utf8ByteSize then
      .ok (some (.ok (Scan.eofToken c.line)), { c with place := c.place + 1 })
    else .ok (none, c)

/-- The next item, if there is one. A piece takes at least one byte, so one round more than there are bytes is
enough. -/
def next (c : Cursor) : Except Fault (Option Item × Cursor) := nextLoop source (source.utf8ByteSize + 1) c

/-- The item that comes after `k` others, if there is one. -/
def nth : Nat → Cursor → Except Fault (Option Item)
  | 0, c => do return (← c.next source).1
  | k + 1, c => do nth k (← c.next source).2

/-- Calls for items until there are no more. -/
def items : Nat → Cursor → Except Fault (List Item)
  | 0, _ => .ok []
  | calls + 1, c => do
    match ← c.next source with
    | (some item, c) => return item :: (← items calls c)
    | (none, _) => return []

/-- Where reading starts. -/
def first : Cursor := ⟨0, 0, 1⟩

/-- All items: at most one for each byte, and `eof`. -/
def scan : Except Fault (List Item) := items source (source.utf8ByteSize + 2) first

/-- The cursor is here at some time between two pieces. -/
inductive Reaches : Cursor → Prop
  | first : Reaches first
  | next {c after : Cursor} {item : Option Item} (before : Reaches c) (more : c.place < source.utf8ByteSize)
      (read : c.item source = .ok (item, after)) : Reaches after

end Cursor
end Lox
