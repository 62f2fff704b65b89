import Mathlib
import Lox.Token.Scan

/-!
# Reading a text line by line

Only a string runs over the end of a line. So a text whose strings are all closed is read in the same way
whatever follows on the lines below it, and what follows is read as it would be alone, some lines
further down.
-/

namespace Lox

/-! ## Further down -/

def Token.shift (c : Nat) (t : Token) : Token := { t with line := t.line + c }

/-- The same error `c` lines further down, if it has a line. -/
def Error.shift (c : Nat) : Error → Error
  | .lexical line fault => .lexical (line + c) fault
  | .syntactic line place fault => .syntactic (line + c) place fault
  | .scoping line place fault => .scoping (line + c) place fault
  | .runtime line fault => .runtime (line + c) fault
  | e => e

def Item.shift (c : Nat) : Item → Item
  | .ok t => .ok (t.shift c)
  | .error e => .error (e.shift c)

theorem Item.tokens_map_shift (c : Nat) (items : List Item) :
    Item.tokens (items.map (Item.shift c)) = (Item.tokens items).map (Token.shift c) := by
  unfold Item.tokens
  induction items with
  | nil => rfl
  | cons item rest ih =>
    cases item with
    | ok t => exact congrArg (t.shift c :: ·) ih
    | error e => exact ih

theorem Item.errors_map_shift (c : Nat) (items : List Item) :
    Item.errors (items.map (Item.shift c)) = (Item.errors items).map (Error.shift c) := by
  unfold Item.errors
  induction items with
  | nil => rfl
  | cons item rest ih =>
    cases item with
    | ok t => exact ih
    | error e => exact congrArg (e.shift c :: ·) ih

namespace Scan

def Piece.shift (c : Nat) (p : Piece) : Piece := ⟨p.item.map (Item.shift c), p.text, p.line + c⟩

theorem stringPiece_shift (c line : Nat) (cs : List Char) :
    stringPiece (line + c) cs = (stringPiece line cs).shift c := by
  unfold stringPiece
  dsimp only
  rw [Nat.add_right_comm]
  split <;> rfl

theorem numberPiece_shift (c line : Nat) (cs : List Char) :
    numberPiece (line + c) cs = (numberPiece line cs).shift c := by
  unfold numberPiece
  dsimp only
  split
  · split <;> rfl
  · rfl

theorem symbolPiece_shift (c line : Nat) (x : Char) (cs : List Char) :
    symbolPiece (line + c) x cs = (symbolPiece line x cs).shift c := by
  unfold symbolPiece
  split
  · rfl
  · split <;> rfl

theorem piece_shift (c line : Nat) (x : Char) (cs : List Char) :
    piece (line + c) x cs = (piece line x cs).shift c := by
  unfold piece
  split
  · rfl
  split
  · rw [Nat.add_right_comm]
    rfl
  split
  · rfl
  split
  · exact stringPiece_shift c line cs
  split
  · exact numberPiece_shift c line (x :: cs)
  split
  · rfl
  exact symbolPiece_shift c line x cs

theorem items_shift (c fuel line : Nat) (cs : List Char) :
    items fuel (line + c) cs = (items fuel line cs).map (Item.shift c) := by
  induction fuel generalizing line cs with
  | zero => rfl
  | succ fuel ih =>
    cases cs with
    | nil => rfl
    | cons x cs =>
      rw [items, items, piece_shift]
      dsimp only [Piece.shift]
      rw [ih]
      cases (piece line x cs).item with
      | none => rfl
      | some item => rfl

/-! ## Counting lines -/

theorem newlines_append (cs ds : List Char) : newlines (cs ++ ds) = newlines cs + newlines ds :=
  List.count_append

/-- What does not contain the end of a line. -/
theorem newlines_takeWhile {p : Char → Bool} (hp : p '\n' = false) (cs : List Char) :
    newlines (cs.takeWhile p) = 0 := by
  refine List.count_eq_zero.2 fun h => ?_
  have := List.mem_takeWhile_imp h
  rw [hp] at this
  cases this

theorem newlines_cons_of_ne {x : Char} (hx : x ≠ '\n') (cs : List Char) :
    newlines (x :: cs) = newlines cs :=
  List.count_cons_of_ne hx

theorem found_line {text : List Char} (h : newlines text = 0) (kind : Kind) (line : Nat) :
    (found kind text line).line = line + newlines (found kind text line).text := by
  show line = line + newlines text
  rw [h, Nat.add_zero]

theorem stringPiece_line (line : Nat) (cs : List Char) :
    (stringPiece line cs).line = line + newlines (stringPiece line cs).text := by
  have hquote : '"' ≠ '\n' := by decide
  unfold stringPiece
  dsimp only
  split
  case h_1 =>
    show _ = line + newlines ('"' :: _)
    rw [newlines_cons_of_ne hquote]
    rfl
  case h_2 quote rest hd =>
    have hq : quote = '"' := by
      have := List.head?_dropWhile_not (· ≠ '"') cs
      rw [hd] at this
      simpa using this
    subst hq
    show _ = line + newlines ('"' :: (_ ++ ['"']))
    rw [newlines_cons_of_ne hquote, newlines_append, newlines_cons_of_ne hquote]
    rfl

theorem numberPiece_line (line : Nat) (cs : List Char) :
    (numberPiece line cs).line = line + newlines (numberPiece line cs).text := by
  have hdigits : ∀ ds : List Char, newlines (ds.takeWhile Char.isDigit) = 0 :=
    newlines_takeWhile (by decide)
  unfold numberPiece
  dsimp only
  split
  case h_1 rest _ =>
    split
    case h_1 => exact found_line (hdigits cs) _ line
    case h_2 =>
      refine found_line ?_ _ line
      rw [newlines_append, hdigits, newlines_cons_of_ne (by decide), hdigits]
  case h_2 => exact found_line (hdigits cs) _ line

theorem symbolPiece_line (line : Nat) {x : Char} (hx : x ≠ '\n') (cs : List Char) :
    (symbolPiece line x cs).line = line + newlines (symbolPiece line x cs).text := by
  have hone : newlines [x] = 0 := newlines_cons_of_ne hx []
  unfold symbolPiece
  split
  · exact found_line (newlines_cons_of_ne hx ['=']) _ line
  · split
    · exact found_line hone _ line
    · show line = line + newlines [x]
      rw [hone, Nat.add_zero]

/-- A piece ends as many lines further down as it has line ends. -/
theorem piece_line (line : Nat) (x : Char) (cs : List Char) :
    (piece line x cs).line = line + newlines (piece line x cs).text := by
  unfold piece
  split
  case isTrue hx =>
    show line = line + newlines [x]
    rcases hx with rfl | rfl | rfl <;> rfl
  split
  case isTrue hx =>
    subst hx
    rfl
  case isFalse hx =>
    split
    · show line = line + newlines (x :: cs.takeWhile (· ≠ '\n'))
      rw [newlines_cons_of_ne hx, newlines_takeWhile (by decide), Nat.add_zero]
    split
    · exact stringPiece_line line cs
    split
    · exact numberPiece_line line (x :: cs)
    split
    · refine found_line ?_ _ line
      rw [newlines_cons_of_ne hx, newlines_takeWhile (by decide)]
    exact symbolPiece_line line hx cs

/-! ## What stands below -/

section

variable {p : Char → Bool} {x : Char}

theorem takeWhile_append_cons (hx : p x = false) (cs ds : List Char) :
    (cs ++ x :: ds).takeWhile p = cs.takeWhile p := by
  induction cs with
  | nil => simp [hx]
  | cons y cs ih =>
    rw [List.cons_append, List.takeWhile_cons, List.takeWhile_cons, ih]

theorem dropWhile_append_cons (hx : p x = false) (cs ds : List Char) :
    (cs ++ x :: ds).dropWhile p = cs.dropWhile p ++ x :: ds := by
  induction cs with
  | nil => simp [hx]
  | cons y cs ih =>
    rw [List.cons_append, List.dropWhile_cons, List.dropWhile_cons, ih]
    split <;> rfl

theorem takeWhile_append_of_dropWhile {cs rest : List Char} (h : cs.dropWhile p = x :: rest)
    (ds : List Char) :
    (cs ++ ds).takeWhile p = cs.takeWhile p ∧ (cs ++ ds).dropWhile p = x :: (rest ++ ds) := by
  induction cs with
  | nil => cases h
  | cons y cs ih =>
    rw [List.dropWhile_cons] at h
    rw [List.cons_append, List.takeWhile_cons, List.takeWhile_cons, List.dropWhile_cons]
    split at h
    case isTrue hy =>
      rw [if_pos hy, if_pos hy, if_pos hy, (ih h).1]
      exact ⟨rfl, (ih h).2⟩
    case isFalse hy =>
      cases h
      rw [if_neg hy, if_neg hy, if_neg hy]
      exact ⟨rfl, rfl⟩

end

/-- The item is not a string without an end. -/
def Closed : Option Item → Prop
  | some (.error (.lexical _ .unterminatedString)) => False
  | _ => True

theorem stringPiece_append {line : Nat} {cs : List Char} (h : Closed (stringPiece line cs).item)
    (ds : List Char) : stringPiece line (cs ++ ds) = stringPiece line cs := by
  unfold stringPiece at h ⊢
  cases hd : cs.dropWhile (· ≠ '"') with
  | nil =>
    rw [hd] at h
    exact h.elim
  | cons quote rest =>
    obtain ⟨ht, hdrop⟩ := takeWhile_append_of_dropWhile hd ds
    dsimp only
    rw [ht, hdrop]

theorem numberPiece_append {x : Char} (hdigit : x.isDigit = false) (hpoint : x ≠ '.') (line : Nat)
    (cs ds : List Char) : numberPiece line (cs ++ x :: ds) = numberPiece line cs := by
  unfold numberPiece
  dsimp only
  rw [takeWhile_append_cons hdigit, dropWhile_append_cons hdigit]
  cases cs.dropWhile Char.isDigit with
  | nil => simp [hpoint]
  | cons y rest =>
    by_cases hy : y = '.'
    · subst hy
      simp only [List.cons_append, takeWhile_append_cons hdigit]
    · simp [hy]

theorem symbolPiece_append {x : Char} (hx : x ≠ '=') (line : Nat) (c : Char) (cs ds : List Char) :
    symbolPiece line c (cs ++ x :: ds) = symbolPiece line c cs := by
  cases cs with
  | nil => simp [symbolPiece, hx]
  | cons y cs =>
    unfold symbolPiece
    by_cases hy : y = '='
    · subst hy
      cases markEqual? c with
      | none => rfl
      | some s => rfl
    · simp [hy]

/-- What stands below a line does not change a piece on it, unless that is a string without an end. -/
theorem piece_append {line : Nat} {x : Char} {cs : List Char} (h : Closed (piece line x cs).item)
    (ds : List Char) : piece line x (cs ++ '\n' :: ds) = piece line x cs := by
  have hhead : (cs ++ '\n' :: ds).head? = some '/' ↔ cs.head? = some '/' := by
    cases cs with
    | nil => simp
    | cons y cs => rfl
  revert h
  unfold piece
  simp only [hhead]
  split
  · exact fun _ => rfl
  split
  · exact fun _ => rfl
  split
  · rw [takeWhile_append_cons (by decide)]
    exact fun _ => rfl
  split
  · exact fun h => stringPiece_append h _
  split
  · exact fun _ => numberPiece_append (by decide) (by decide) line (x :: cs) ds
  split
  · rw [takeWhile_append_cons (by decide)]
    exact fun _ => rfl
  · exact fun _ => symbolPiece_append (by decide) line x cs ds

/-! ## Whole texts -/

theorem items_cons (fuel line : Nat) (x : Char) (cs : List Char) :
    items (fuel + 1) line (x :: cs) = (piece line x cs).item.toList ++
      items fuel (piece line x cs).line ((x :: cs).drop (piece line x cs).text.length) := by
  rw [items]
  cases (piece line x cs).item <;> rfl

theorem items_ne_nil (fuel line : Nat) (cs : List Char) : items fuel line cs ≠ [] := by
  induction fuel generalizing line cs with
  | zero => exact List.cons_ne_nil _ _
  | succ fuel ih =>
    cases cs with
    | nil => exact List.cons_ne_nil _ _
    | cons x cs =>
      rw [items_cons]
      exact List.append_ne_nil_of_right_ne_nil _ (ih _ _)

/-- A text in which all strings are closed, and what stands below it. -/
theorem items_append (line : Nat) (cs ds : List Char)
    (h : ∀ item ∈ items cs.length line cs, Closed (some item)) :
    items (cs ++ '\n' :: ds).length line (cs ++ '\n' :: ds) =
      (items cs.length line cs).dropLast ++ items ds.length (line + newlines cs + 1) ds := by
  induction hn : cs.length using Nat.strongRecOn generalizing line cs with
  | _ n ih =>
    cases cs with
    | nil =>
      subst hn
      rfl
    | cons x cs =>
      obtain ⟨rest, hrest⟩ := piece_text line x cs
      have hpos := List.length_pos_iff.2 (piece_text_ne_nil line x cs)
      have hlen : (piece line x cs).text.length + rest.length = cs.length + 1 := by
        rw [← List.length_append, hrest, List.length_cons]
      have hdrop : (x :: cs).drop (piece line x cs).text.length = rest := by
        rw [← hrest, List.drop_left]
      -- the text alone
      have halone : items (x :: cs).length line (x :: cs) =
          (piece line x cs).item.toList ++ items rest.length (piece line x cs).line rest := by
        rw [List.length_cons, items_cons, hdrop, items_of_length_le _ _ _ (by omega)]
      rw [halone] at h
      obtain ⟨hitem, hlater⟩ := List.forall_mem_append.1 h
      have hclosed : Closed (piece line x cs).item := by
        cases hp : (piece line x cs).item with
        | none => trivial
        | some item => exact hitem item (by rw [hp]; exact List.mem_singleton_self _)
      -- the text with what stands below it
      have hjoin : items ((x :: cs) ++ '\n' :: ds).length line ((x :: cs) ++ '\n' :: ds) =
          (piece line x cs).item.toList ++ items (rest ++ '\n' :: ds).length (piece line x cs).line
            (rest ++ '\n' :: ds) := by
        have hbelow : (x :: (cs ++ '\n' :: ds)).drop (piece line x cs).text.length =
            rest ++ '\n' :: ds := by
          rw [← List.cons_append, ← hrest, List.append_assoc, List.drop_left]
        rw [List.cons_append, List.length_cons, items_cons, piece_append hclosed, hbelow,
          items_of_length_le _ _ _ (by simp only [List.length_append, List.length_cons]; omega)]
      have hline : (piece line x cs).line + newlines rest = line + newlines (x :: cs) := by
        rw [piece_line, ← hrest, newlines_append, Nat.add_assoc]
      have hshort : rest.length < n := by
        rw [List.length_cons] at hn
        omega
      have hih := ih rest.length hshort (piece line x cs).line rest hlater rfl
      rw [hjoin, ← hn, halone, hih, hline, List.dropLast_append_of_ne_nil (items_ne_nil _ _ _),
        List.append_assoc]

theorem piece_kind {line : Nat} {x : Char} {cs : List Char} {t : Token}
    (h : (piece line x cs).item = some (.ok t)) : t.kind ≠ .eof := by
  cases piece_lexed h with
  | word text line =>
    show wordKind text ≠ .eof
    unfold wordKind
    split <;> nofun
  | other _ _ heof => exact heof

/-- The last item is the end of the text, and no other is. -/
theorem items_eof (fuel line : Nat) (cs : List Char) :
    ∃ init last, items fuel line cs = init ++ [.ok (eofToken last)] ∧
      ∀ t, .ok t ∈ init → t.kind ≠ .eof := by
  induction fuel generalizing line cs with
  | zero => exact ⟨[], line, rfl, nofun⟩
  | succ fuel ih =>
    cases cs with
    | nil => exact ⟨[], line, rfl, nofun⟩
    | cons x cs =>
      obtain ⟨init, last, heq, hinit⟩ :=
        ih (piece line x cs).line ((x :: cs).drop (piece line x cs).text.length)
      refine ⟨(piece line x cs).item.toList ++ init, last, ?_, fun t ht => ?_⟩
      · rw [items_cons, heq, List.append_assoc]
      · rcases List.mem_append.1 ht with ht | ht
        · exact piece_kind (Option.mem_toList.1 ht)
        · exact hinit t ht

end Scan

/-- A text in which all strings are closed is read line by line. -/
theorem Token.scan_join (first second : String)
    (h : ∀ item ∈ Token.scan first, Scan.Closed (some item)) :
    Token.scan (first ++ "\n" ++ second) = (Token.scan first).dropLast ++
      (Token.scan second).map (Item.shift (Scan.newlines first.toList + 1)) := by
  have hchars : (first ++ "\n" ++ second).toList = first.toList ++ '\n' :: second.toList := by
    rw [String.toList_append, String.toList_append, List.append_assoc]
    rfl
  unfold Token.scan at h ⊢
  rw [← String.length_toList] at h
  rw [← String.length_toList, ← String.length_toList, ← String.length_toList, hchars,
    Scan.items_append 1 _ _ h, ← Scan.items_shift, Nat.add_assoc]

end Lox
