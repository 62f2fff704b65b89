import Lox.Proofs.Lexical.Bytes

/-!
# Reading bytes is reading characters

Between two pieces the cursor is at the end of a character. It reads the bytes of the next piece, all of them and
no others, so every cut it makes is between characters, and what it cuts out is what the scanner of characters
reads.
-/

namespace Lox.Cursor

variable {source : String} {c : Cursor}

/-! ## What is ahead -/

/-- The bytes from the cursor on. -/
def ahead (source : String) (c : Cursor) : List Char := (bytes source).drop c.place

/-- The cursor some bytes further on. -/
def forward (c : Cursor) (k : Nat) : Cursor := { c with place := c.place + k }

theorem forward_forward (c : Cursor) (j k : Nat) : (c.forward j).forward k = c.forward (j + k) := by
  simp only [forward, Nat.add_assoc]

theorem ahead_forward (k : Nat) : (c.forward k).ahead source = (c.ahead source).drop k := by
  simp only [ahead, forward, List.drop_drop]

theorem peek_eq : c.peek source = (c.ahead source).headD '\x00' := by
  rw [peek, ahead, List.headD_eq_head?_getD, List.head?_drop]

theorem peekNext_eq : c.peekNext source = ((c.ahead source).drop 1).headD '\x00' := by
  rw [peekNext, ahead, List.drop_drop, List.headD_eq_head?_getD, List.head?_drop]

theorem atEnd_eq : c.atEnd source = (c.ahead source).isEmpty := by
  rw [atEnd, ahead, Bool.eq_iff_iff]
  simp

theorem advance_eq {x : Char} {ds : List Char} (h : c.ahead source = x :: ds) :
    c.advance source = .ok (x, c.forward 1) := by
  have hx : (bytes source)[c.place]? = some x := by rw [← List.head?_drop, ← ahead, h, List.head?_cons]
  rw [advance, hx]
  rfl

theorem matchByte_eq (expected : Char) : c.matchByte source expected =
    .ok (if (c.ahead source).head? = some expected then (true, c.forward 1) else (false, c)) := by
  rw [matchByte, atEnd_eq, peek_eq]
  cases h : c.ahead source with
  | nil => rfl
  | cons x ds =>
    simp only [List.isEmpty_cons, Bool.not_false, Bool.true_and, List.headD_cons, beq_iff_eq,
      List.head?_cons, Option.some.injEq]
    split
    · rw [advance_eq h]
      rfl
    · rfl

theorem skipWhile_eq {p : Char → Bool} (hp : p '\x00' = false) (c : Cursor) :
    c.skipWhile source p = .ok (c.forward ((c.ahead source).takeWhile p).length) := by
  generalize h : c.ahead source = ds
  induction ds generalizing c with
  | nil =>
    rw [skipWhile, peek_eq, h]
    simp [hp, forward]
  | cons x ds ih =>
    have hnext : (c.forward 1).ahead source = ds := by rw [ahead_forward, h, List.drop_one, List.tail_cons]
    rw [skipWhile, peek_eq, h, List.headD_cons, List.takeWhile_cons]
    split
    case isTrue hx =>
      split
      case h_1 next heq =>
        rw [advance_eq h] at heq
        cases heq
        rw [ih _ hnext, forward_forward, List.length_cons, Nat.add_comm]
      case h_2 heq =>
        rw [advance_eq h] at heq
        cases heq
    case isFalse hx => simp [forward]

/-- The cursor some bytes further on, and as many lines further down as end among them. -/
def past (c : Cursor) (ds : List Char) : Cursor :=
  ⟨c.start, c.place + ds.length, c.line + Scan.newlines ds⟩

theorem skipString_eq (c : Cursor) :
    c.skipString source = .ok (c.past ((c.ahead source).takeWhile (· ≠ '"'))) := by
  generalize h : c.ahead source = ds
  induction ds generalizing c with
  | nil =>
    rw [skipString, atEnd_eq, h]
    rfl
  | cons x ds ih =>
    rw [skipString, atEnd_eq, peek_eq, h, List.headD_cons, List.takeWhile_cons]
    by_cases hx : x = '"'
    · simp [hx, past, Scan.newlines]
    · rw [if_pos (by simp [hx]), if_pos (decide_eq_true hx)]
      split
      case h_1 y next heq =>
        rw [advance_eq h] at heq
        cases heq
        have hnext : ({ c.forward 1 with line := if x = '\n' then c.line + 1 else c.line } : Cursor).ahead
            source = ds := by
          show (c.forward 1).ahead source = ds
          rw [ahead_forward, h, List.drop_one, List.tail_cons]
        rw [show (c.forward 1).line = c.line from rfl, ih _ hnext]
        simp only [past, forward, Scan.newlines, List.length_cons, List.count_cons, beq_iff_eq]
        split <;> simp only [Except.ok.injEq, Cursor.mk.injEq, true_and] <;> omega
      case h_2 heq =>
        rw [advance_eq h] at heq
        cases heq

/-! ## Between two characters -/

/-- The cursor is at the end of the characters `behind`, before the characters `rest`. -/
structure Between (source : String) (c : Cursor) (behind rest : List Char) : Prop where
  text : source.toList = behind ++ rest
  place : c.place = (octets behind).length

theorem isBoundary_octets {behind rest : List Char} (h : source.toList = behind ++ rest) :
    IsBoundary source (octets behind).length := by
  apply String.Pos.Raw.isValid_iff_exists_append.2
  refine ⟨String.ofList behind, String.ofList rest, ?_, ?_⟩
  · rw [← String.ofList_append, ← h, String.ofList_toList]
  · rw [length_octets]
    rfl

/-- A cut between characters is the characters between. -/
theorem cut_eq {behind mid rest : List Char} (h : source.toList = behind ++ (mid ++ rest)) :
    cut source (octets behind).length (octets (behind ++ mid)).length = .ok (String.ofList mid) := by
  have hfirst := isBoundary_octets h
  have hlast : IsBoundary source (octets (behind ++ mid)).length :=
    isBoundary_octets (h.trans (List.append_assoc _ _ _).symm)
  have hle : (octets behind).length ≤ (octets (behind ++ mid)).length := by simp
  have hsize : ∀ cs : List Char, (octets cs).length = cs.utf8Encode.size := fun cs => by
    rw [length_octets, String.utf8ByteSize, String.toByteArray_ofList]
  have hbytes : source.toByteArray = behind.utf8Encode ++ (mid.utf8Encode ++ rest.utf8Encode) := by
    rw [← List.utf8Encode_append, ← List.utf8Encode_append, ← h, ← String.toByteArray_ofList,
      String.ofList_toList]
  rw [cut, dif_pos ⟨⟨hle, hlast.le_utf8ByteSize⟩, hfirst, hlast⟩]
  apply congrArg Except.ok
  apply String.toByteArray_inj.1
  rw [String.toByteArray_extract, String.toByteArray_ofList, hbytes]
  dsimp only
  rw [octets_append, List.length_append, hsize, hsize]
  exact (ByteArray.extract_append_size_add (i := 0)).trans (ByteArray.extract_append_eq_left rfl)

namespace Between

variable {behind rest : List Char}

theorem ahead (h : Between source c behind rest) : c.ahead source = octets rest := by
  rw [Cursor.ahead, bytes_eq_octets, h.text, h.place, octets_append, List.drop_left]

theorem forward {mid : List Char} (h : Between source c behind (mid ++ rest)) :
    Between source (c.forward (octets mid).length) (behind ++ mid) rest where
  text := by rw [h.text, List.append_assoc]
  place := by rw [Cursor.forward, h.place, octets_append, List.length_append]

/-- Bytes that satisfy a test are the characters that do. -/
theorem skipWhile {p : Char → Bool} (hp : Narrow p) (hzero : p '\x00' = false)
    (h : Between source c behind rest) :
    c.skipWhile source p = .ok (c.forward (octets (rest.takeWhile p)).length) := by
  rw [skipWhile_eq hzero, h.ahead, hp.takeWhile_octets]

theorem past {mid : List Char} (h : Between source c behind (mid ++ rest)) :
    Between source (c.past (octets mid)) (behind ++ mid) rest :=
  ⟨h.forward.text, h.forward.place⟩

theorem skipString (h : Between source c behind rest) :
    c.skipString source = .ok (c.past (octets (rest.takeWhile (· ≠ '"')))) := by
  rw [skipString_eq, h.ahead, (narrow_ne (by decide)).takeWhile_octets]

end Between

/-! ## One piece -/

section

variable {digits : List Char} (hd : ∀ x ∈ digits, x.isDigit = true)
include hd

theorem numeral_digits : numeral digits = Scan.numberOf digits [] := by
  rw [numeral, List.takeWhile_eq_self_iff.2 hd, List.dropWhile_eq_nil_iff.2 hd]
  rfl

theorem numeral_fraction (fraction : List Char) :
    numeral (digits ++ '.' :: fraction) = Scan.numberOf digits fraction := by
  obtain ⟨htake, hdrop⟩ := Scan.span_front hd (by decide : Char.isDigit '.' = false) fraction
  rw [numeral, htake, hdrop]
  rfl

end

/-- The item that is made of what was found. -/
def Found.item (text : List Char) (line : Nat) : Found → Option Item
  | none => none
  | some (.error fault) => some (.error (.lexical line fault))
  | some (.ok kind) => some (.ok ⟨kind, String.ofList text, line⟩)

/-- Bytes were read from `start` on, and they are this piece. -/
def Finds (start : Nat) (p : Scan.Piece) (result : Except Fault (Found × Cursor)) : Prop :=
  ∃ found : Found, result = .ok (found, ⟨start, start + (octets p.text).length, p.line⟩) ∧
    p.item = found.item p.text p.line

section

variable {start line : Nat} {text : List Char} {result : Except Fault (Found × Cursor)}

theorem Finds.skipped (h : result = .ok (none, ⟨start, start + (octets text).length, line⟩)) :
    Finds start (Scan.skipped text line) result := ⟨_, h, rfl⟩

theorem Finds.found {kind : Kind}
    (h : result = .ok (some (.ok kind), ⟨start, start + (octets text).length, line⟩)) :
    Finds start (Scan.found kind text line) result := ⟨_, h, rfl⟩

theorem Finds.failed {fault : LexicalFault}
    (h : result = .ok (some (.error fault), ⟨start, start + (octets text).length, line⟩)) :
    Finds start (Scan.failed fault text line) result := ⟨_, h, rfl⟩

end

/-- The first character of a piece has been read. -/
structure Begun (source : String) (c : Cursor) (behind : List Char) (x : Char) (cs : List Char) : Prop
    extends Between source c (behind ++ [x]) cs where
  start : c.start = (octets behind).length

namespace Begun

variable {behind cs : List Char} {x : Char}

/-- The cursor after more characters of the piece. -/
theorem forward_eq (h : Begun source c behind x cs) (mid : List Char) :
    c.forward (octets mid).length = ⟨c.start, c.start + (octets (x :: mid)).length, c.line⟩ := by
  simp [forward, h.place, h.start, Nat.add_assoc]

theorem eq (h : Begun source c behind x cs) : c = ⟨c.start, c.start + (octets [x]).length, c.line⟩ :=
  h.forward_eq []

theorem cut {mid rest : List Char} (h : Begun source c behind x (mid ++ rest)) :
    cut source c.start (c.start + (octets (x :: mid)).length) = .ok (String.ofList (x :: mid)) := by
  have htext : source.toList = behind ++ ((x :: mid) ++ rest) := by rw [h.text]; simp
  have hcut := cut_eq htext
  rwa [octets_append, List.length_append, ← h.start] at hcut

theorem word (h : Begun source c behind x cs) :
    Finds c.start (Scan.found (Scan.wordKind (x :: cs.takeWhile Scan.isWordRest))
      (x :: cs.takeWhile Scan.isWordRest) c.line) (c.word source) := by
  have hcs : cs.takeWhile Scan.isWordRest ++ cs.dropWhile Scan.isWordRest = cs :=
    List.takeWhile_append_dropWhile
  have hcut := Begun.cut (hcs.symm ▸ h)
  apply Finds.found
  simp only [Cursor.word, h.toBetween.skipWhile narrow_isWordRest (by decide), h.forward_eq, bind,
    Except.bind, pure, Except.pure, hcut, String.toList_ofList]

/-- A number without a fraction, since no point with a digit after it follows. -/
theorem integer (h : Begun source c behind x cs) (hx : x.isDigit = true)
    (hstop : (((octets (cs.dropWhile Char.isDigit)).headD '\x00' == '.') &&
      (((octets (cs.dropWhile Char.isDigit)).drop 1).headD '\x00').isDigit) = false) :
    Finds c.start (Scan.found (.number (Scan.numberOf (x :: cs.takeWhile Char.isDigit) []))
      (x :: cs.takeWhile Char.isDigit) c.line) (c.number source) := by
  have hcs : cs.takeWhile Char.isDigit ++ cs.dropWhile Char.isDigit = cs :=
    List.takeWhile_append_dropWhile
  have hdigits : ∀ y ∈ x :: cs.takeWhile Char.isDigit, y.isDigit = true :=
    List.forall_mem_cons.2 ⟨hx, fun y hy => List.mem_takeWhile_imp hy⟩
  have hahead := (Between.forward (hcs.symm ▸ h.toBetween)).ahead
  have hcut := Begun.cut (hcs.symm ▸ h)
  rw [h.forward_eq] at hahead
  apply Finds.found
  simp only [Cursor.number, h.toBetween.skipWhile narrow_isDigit (by decide), h.forward_eq, bind,
    Except.bind, pure, Except.pure, peek_eq, peekNext_eq, hahead, hstop, Bool.false_eq_true, if_false,
    hcut, String.toList_ofList, numeral_digits hdigits]

/-- A number with a fraction. -/
theorem decimal {y : Char} {rest : List Char} (h : Begun source c behind x cs) (hx : x.isDigit = true)
    (hpoint : cs.dropWhile Char.isDigit = '.' :: y :: rest) (hy : y.isDigit = true) :
    Finds c.start (Scan.found
      (.number (Scan.numberOf (x :: cs.takeWhile Char.isDigit) ((y :: rest).takeWhile Char.isDigit)))
      (x :: cs.takeWhile Char.isDigit ++ '.' :: (y :: rest).takeWhile Char.isDigit) c.line)
      (c.number source) := by
  have hskip := h.toBetween.skipWhile narrow_isDigit (by decide)
  have hdigits : ∀ y ∈ x :: cs.takeWhile Char.isDigit, y.isDigit = true :=
    List.forall_mem_cons.2 ⟨hx, fun y hy => List.mem_takeWhile_imp hy⟩
  have hcs : cs = (cs.takeWhile Char.isDigit ++ ['.']) ++ y :: rest := by
    rw [List.append_assoc, List.singleton_append, ← hpoint, List.takeWhile_append_dropWhile]
  generalize cs.takeWhile Char.isDigit = digits at *
  subst hcs
  generalize hfraction : (y :: rest).takeWhile Char.isDigit = fraction
  -- the cursor before the point
  have hbefore : (c.forward (octets digits).length).ahead source = '.' :: octets (y :: rest) := by
    have hmid : Between source c (behind ++ [x]) (digits ++ ('.' :: y :: rest)) := by
      simpa using h.toBetween
    rw [hmid.forward.ahead, octets_cons, charBytes_of_not_isWide (by decide), List.singleton_append]
  have hdigit : ((octets (y :: rest)).headD '\x00').isDigit = true := by
    rw [narrow_isDigit.headD_octets (by decide)]
    exact hy
  have hadvance : (c.forward (octets digits).length).advance source =
      .ok ('.', c.forward (octets (digits ++ ['.'])).length) := by
    rw [advance_eq hbefore, forward_forward, octets_append, List.length_append]
    rfl
  -- the cursor after the fraction
  have hmore : (c.forward (octets (digits ++ ['.'])).length).skipWhile source Char.isDigit =
      .ok ⟨c.start, c.start + (octets (x :: digits ++ '.' :: fraction)).length, c.line⟩ := by
    rw [h.toBetween.forward.skipWhile narrow_isDigit (by decide), hfraction, forward_forward,
      ← List.length_append, ← octets_append, h.forward_eq]
    simp
  have hcut : Cursor.cut source c.start (c.start + (octets (x :: digits ++ '.' :: fraction)).length) =
      .ok (String.ofList (x :: digits ++ '.' :: fraction)) := by
    have hwhole : Begun source c behind x ((digits ++ '.' :: fraction) ++ (y :: rest).dropWhile Char.isDigit) := by
      rw [← hfraction, List.append_assoc, List.cons_append, List.takeWhile_append_dropWhile]
      simpa using h
    exact hwhole.cut
  apply Finds.found
  simp only [Cursor.number, hskip, bind, Except.bind, peek_eq, peekNext_eq, hbefore, List.headD_cons,
    List.drop_one, List.tail_cons, beq_self_eq_true, hdigit, Bool.and_self, if_true, hadvance, hmore, hcut,
    pure, Except.pure, String.toList_ofList, numeral_fraction hdigits]

theorem number (h : Begun source c behind x cs) (hx : x.isDigit = true) :
    Finds c.start (Scan.numberPiece c.line (x :: cs)) (c.number source) := by
  have hdigits : (x :: cs).takeWhile Char.isDigit = x :: cs.takeWhile Char.isDigit := by
    rw [List.takeWhile_cons, if_pos hx]
  have hrest : (x :: cs).dropWhile Char.isDigit = cs.dropWhile Char.isDigit := by
    rw [List.dropWhile_cons, if_pos hx]
  have hinteger := h.integer hx
  unfold Scan.numberPiece
  simp only [hdigits, hrest]
  split
  case h_1 rest hpoint =>
    cases rest with
    | nil => exact hinteger (by rw [hpoint]; rfl)
    | cons y rest =>
      by_cases hy : y.isDigit = true
      · have hdecimal := h.decimal hx hpoint hy
        simp only [List.takeWhile_cons, hy, if_true] at hdecimal ⊢
        exact hdecimal
      · simp only [List.takeWhile_cons, hy]
        apply hinteger
        have hdigit := narrow_isDigit.headD_octets (by decide) (y :: rest)
        rw [hpoint, octets_cons, charBytes_of_not_isWide (by decide), List.singleton_append, List.drop_one,
          List.tail_cons, hdigit]
        simp [hy]
  case h_2 hpoint =>
    have hnone : (cs.dropWhile Char.isDigit).head?.any (· == '.') = false := by
      cases htail : cs.dropWhile Char.isDigit with
      | nil => rfl
      | cons y rest => exact beq_eq_false_iff_ne.2 fun hy => hpoint rest (hy ▸ htail)
    have hpeek := (narrow_beq (by decide : ¬ IsWide '.')).headD_octets rfl (cs.dropWhile Char.isDigit)
    apply hinteger
    rw [hpeek, hnone, Bool.false_and]

theorem past_eq (h : Begun source c behind x cs) (mid : List Char) :
    c.past (octets mid) = ⟨c.start, c.start + (octets (x :: mid)).length, c.line + Scan.newlines mid⟩ := by
  have hplace := congrArg Cursor.place (h.forward_eq mid)
  rw [past, newlines_octets]
  exact congrArg (Cursor.mk c.start · (c.line + Scan.newlines mid)) hplace

/-- A quote has been read. -/
theorem string (h : Begun source c behind '"' cs) :
    Finds c.start (Scan.stringPiece c.line cs) (c.string source) := by
  have hskip := h.toBetween.skipString
  have hcs : cs.takeWhile (· ≠ '"') ++ cs.dropWhile (· ≠ '"') = cs := List.takeWhile_append_dropWhile
  have hstop := Between.past (hcs.symm ▸ h.toBetween)
  have hquote := List.head?_dropWhile_not (fun x : Char => decide (x ≠ '"')) cs
  unfold Scan.stringPiece
  generalize cs.takeWhile (· ≠ '"') = contents at *
  generalize cs.dropWhile (· ≠ '"') = tail at *
  cases tail with
  | nil =>
    apply Finds.failed
    simp only [Cursor.string, hskip, bind, Except.bind, atEnd_eq, hstop.ahead]
    rw [← h.past_eq contents]
    rfl
  | cons quote rest =>
    have hq : quote = '"' := by simpa using hquote
    subst hq hcs
    have hahead : (c.past (octets contents)).ahead source = '"' :: octets rest := by
      rw [hstop.ahead, octets_cons, charBytes_of_not_isWide (by decide)]
      rfl
    have hcut : Cursor.cut source (c.start + 1) (c.start + (octets ('"' :: contents)).length) =
        .ok (String.ofList contents) := by
      have hcut := cut_eq h.text
      simpa [← h.start, charBytes_of_not_isWide (by decide : ¬ IsWide '"'), Nat.add_assoc] using hcut
    have hend : c.start + (octets ('"' :: contents)).length + 1 =
        c.start + (octets ('"' :: contents ++ ['"'])).length := by
      rw [octets_append, List.length_append, Nat.add_assoc]
      rfl
    rw [h.past_eq] at hskip hahead
    apply Finds.found
    rw [← hend]
    simp only [Cursor.string, hskip, bind, Except.bind, atEnd_eq, hahead, advance_eq hahead, Cursor.forward,
      List.isEmpty_cons, Bool.false_eq_true, if_false, Nat.add_sub_cancel, hcut, pure, Except.pure]

theorem comment (h : Begun source c behind '/' ('/' :: cs)) :
    Cursor.skipComment source (c.forward 1) =
      .ok ⟨c.start, c.start + (octets ('/' :: '/' :: cs.takeWhile (· ≠ '\n'))).length, c.line⟩ := by
  have hone : Between source c (behind ++ ['/']) (['/'] ++ cs) := h.toBetween
  have hnext : Between source (c.forward 1) (behind ++ ['/'] ++ ['/']) cs := hone.forward
  have hrest : (bytes source).drop (c.forward 1).place = octets cs := hnext.ahead
  have hle : (c.forward 1).place ≤ source.utf8ByteSize := by
    rw [hnext.place]
    exact (isBoundary_octets hnext.text).le_utf8ByteSize
  have hend := h.forward_eq ('/' :: cs.takeWhile (· ≠ '\n'))
  rw [skipComment, if_pos hle, hrest, (narrow_ne (by decide)).takeWhile_octets, ← hend, octets_cons,
    charBytes_of_not_isWide (by decide), List.length_append, ← forward_forward]
  rfl

/-- The next character is read if it is the one that is asked for. -/
theorem matchByte {y : Char} (h : Begun source c behind x cs) (hy : ¬ IsWide y) :
    c.matchByte source y = .ok (if cs.head? = some y then (true, c.forward 1) else (false, c)) := by
  simp only [matchByte_eq, h.ahead, head?_octets hy]

end Begun

/-- The character at the start of the piece is skipped, whatever its first byte is. -/
theorem unexpected_eq {behind cs : List Char} {x : Char} (h : source.toList = behind ++ x :: cs)
    (hstart : c.start = (octets behind).length) (y : Char) :
    Finds c.start (Scan.failed (.unexpectedCharacter x) [x] c.line) (c.unexpected source y) := by
  have htext : source.toList = behind ++ ((x :: cs) ++ []) := by rw [h, List.append_nil]
  have hcut := cut_eq htext
  have hsize : (octets (behind ++ x :: cs)).length = source.utf8ByteSize := by
    rw [length_octets, ← h, String.ofList_toList]
  rw [← hstart, hsize] at hcut
  apply Finds.failed
  simp only [Cursor.unexpected, hcut, bind, Except.bind, pure, Except.pure, String.toList_ofList,
    List.headD_cons, octets_cons, octets_nil, List.append_nil, length_charBytes]

namespace Begun

variable {behind cs : List Char} {x : Char}

theorem single (h : Begun source c behind x cs) (kind : Kind) :
    Finds c.start (Scan.found kind [x] c.line) (.ok (some (.ok kind), c)) :=
  Finds.found (congrArg (fun c => Except.ok (some (Except.ok kind), c)) h.eq)

theorem forward_one {y : Char} (h : Begun source c behind x cs) (hy : ¬ IsWide y) :
    c.forward 1 = ⟨c.start, c.start + (octets [x, y]).length, c.line⟩ := by
  rw [← h.forward_eq [y], octets_cons, charBytes_of_not_isWide hy]
  rfl

theorem symbol (h : Begun source c behind x cs) :
    Finds c.start (Scan.symbolPiece c.line x cs) (c.symbol source x) := by
  unfold Cursor.symbol
  split
  case h_1 short long hmark hlong =>
    rw [h.matchByte (by decide)]
    by_cases heq : cs.head? = some '='
    · obtain ⟨rest, rfl⟩ := List.head?_eq_some_iff.1 heq
      simp only [Scan.symbolPiece, hlong]
      exact Finds.found (congrArg (fun c => Except.ok (some (Except.ok _), c)) (h.forward_one (by decide)))
    · rw [Scan.symbolPiece_of_mark? hmark (.inl heq), if_neg heq]
      exact h.single (.symbol short)
  case h_2 s hmark hlong =>
    rw [Scan.symbolPiece_of_mark? hmark (.inr hlong)]
    exact h.single (.symbol s)
  case h_3 hmark =>
    rw [Scan.symbolPiece_of_none hmark]
    exact unexpected_eq (by rw [h.text, ← List.append_cons]) h.start x

/-- Narrow characters are their bytes, so the same case applies to both. -/
theorem piece (h : Begun source c behind x cs) :
    Finds c.start (Scan.piece c.line x cs) (c.piece source x) := by
  have hone : ∀ line, ({ c with line := line } : Cursor) = ⟨c.start, c.start + (octets [x]).length, line⟩ :=
    fun line => congrArg (fun c => ({ c with line := line } : Cursor)) h.eq
  unfold Scan.piece Cursor.piece
  by_cases hblank : x = ' ' ∨ x = '\r' ∨ x = '\t'
  · rw [if_pos hblank, if_pos hblank]
    exact Finds.skipped (congrArg (fun c => Except.ok (none, c)) h.eq)
  rw [if_neg hblank, if_neg hblank]
  by_cases hline : x = '\n'
  · rw [if_pos hline, if_pos hline]
    exact Finds.skipped (congrArg (fun c => Except.ok (none, c)) (hone _))
  rw [if_neg hline, if_neg hline]
  by_cases hslash : x = '/'
  · subst hslash
    rw [if_pos rfl, h.matchByte (by decide)]
    by_cases hcomment : cs.head? = some '/'
    · obtain ⟨rest, rfl⟩ := List.head?_eq_some_iff.1 hcomment
      rw [if_pos ⟨rfl, hcomment⟩, if_pos hcomment]
      apply Finds.skipped
      simp [bind, Except.bind, h.comment, pure, Except.pure]
    · rw [if_neg (fun hc => hcomment hc.2), if_neg hcomment]
      simp only [Char.reduceEq, if_false, show Char.isDigit '/' = false from rfl,
        show Scan.isLetter '/' = false from rfl, Bool.false_eq_true]
      rw [Scan.symbolPiece_of_mark? rfl (.inr rfl)]
      exact h.single (.symbol .slash)
  rw [if_neg hslash, if_neg (fun hc => hslash hc.1)]
  by_cases hquote : x = '"'
  · subst hquote
    exact h.string
  rw [if_neg hquote, if_neg hquote]
  by_cases hdigit : x.isDigit = true
  · rw [if_pos hdigit, if_pos hdigit]
    exact h.number hdigit
  rw [if_neg hdigit, if_neg hdigit]
  by_cases hletter : Scan.isLetter x = true
  · rw [if_pos hletter, if_pos hletter]
    exact h.word
  · rw [if_neg hletter, if_neg hletter]
    exact h.symbol

end Begun

/-! ## From piece to piece -/

section

variable {behind cs : List Char} {x : Char}

/-- A byte of a wide character starts nothing, and nor does the character. -/
theorem piece_of_isWide (hx : IsWide x) : c.piece source x = c.unexpected source x := by
  have hne : ∀ y, ¬ IsWide y → x ≠ y := fun y hy => hx.ne hy
  simp only [piece, symbol, hne ' ' (by decide), hne '\r' (by decide), hne '\t' (by decide),
    hne '\n' (by decide), hne '/' (by decide), hne '"' (by decide), hx.not_isDigit, hx.not_isLetter,
    hx.mark?_eq_none, or_self, Bool.false_eq_true, if_false]

theorem scanPiece_of_isWide (hx : IsWide x) (line : Nat) :
    Scan.piece line x cs = Scan.failed (.unexpectedCharacter x) [x] line := by
  have hne : ∀ y, ¬ IsWide y → x ≠ y := fun y hy => hx.ne hy
  simp only [Scan.piece, hne ' ' (by decide), hne '\r' (by decide), hne '\t' (by decide),
    hne '\n' (by decide), hne '/' (by decide), hne '"' (by decide), hx.not_isDigit, hx.not_isLetter,
    or_self, false_and, Bool.false_eq_true, if_false, Scan.symbolPiece_of_none hx.mark?_eq_none]

theorem Between.token (h : Between source c behind (x :: cs)) :
    Finds c.place (Scan.piece c.line x cs) (Cursor.token source { c with start := c.place }) := by
  have hahead : ({ c with start := c.place } : Cursor).ahead source = octets (x :: cs) := h.ahead
  unfold Cursor.token
  by_cases hx : IsWide x
  · cases hbytes : charBytes x with
    | nil => exact absurd hbytes (charBytes_ne_nil x)
    | cons y ys =>
      have hy : IsWide y := isWide_of_mem_charBytes hx (hbytes ▸ List.mem_cons_self)
      rw [octets_cons, hbytes, List.cons_append] at hahead
      rw [advance_eq hahead, scanPiece_of_isWide hx]
      show Finds _ _ (Cursor.piece source y _)
      rw [piece_of_isWide hy]
      exact unexpected_eq h.text h.place y
  · rw [octets_cons, charBytes_of_not_isWide hx, List.singleton_append] at hahead
    rw [advance_eq hahead]
    have hbegun : Begun source (({ c with start := c.place } : Cursor).forward 1) behind x cs :=
      { text := by rw [h.text, List.append_cons]
        place := by simp [Cursor.forward, h.place, charBytes_of_not_isWide hx]
        start := h.place }
    exact hbegun.piece

/-- One step of the reading, against the piece of characters at the same place. -/
theorem Between.item (h : Between source c behind (x :: cs)) :
    c.item source = .ok ((Scan.piece c.line x cs).item,
      ⟨c.place, c.place + (octets (Scan.piece c.line x cs).text).length, (Scan.piece c.line x cs).line⟩) := by
  obtain ⟨rest, hrest⟩ := Scan.piece_text c.line x cs
  obtain ⟨found, htoken, hitem⟩ := h.token
  have hcut := cut_eq (h.text.trans (congrArg (behind ++ ·) hrest.symm))
  rw [octets_append, List.length_append, ← h.place] at hcut
  rw [hitem]
  simp only [Cursor.item, htoken, bind, Except.bind]
  match found with
  | none => rfl
  | some (.error fault) => rfl
  | some (.ok kind) =>
    simp only [hcut]
    rfl

/-- After the piece the cursor is between two characters again, and further on. -/
theorem Between.next {after : Cursor} {item : Option Item} (h : Between source c behind (x :: cs))
    (hread : c.item source = .ok (item, after)) :
    ∃ rest, Between source after (behind ++ (Scan.piece c.line x cs).text) rest ∧
      (octets rest).length < (octets (x :: cs)).length ∧
      Scan.items (x :: cs).length c.line (x :: cs) = item.toList ++ Scan.items rest.length after.line rest := by
  obtain ⟨rest, hrest⟩ := Scan.piece_text c.line x cs
  have hpos := List.length_pos_iff.2 (Scan.piece_text_ne_nil c.line x cs)
  have hle := length_le_octets (Scan.piece c.line x cs).text
  rw [h.item] at hread
  cases hread
  refine ⟨rest, ⟨?_, ?_⟩, ?_, Scan.items_piece rfl rest hrest⟩
  · rw [h.text, List.append_assoc, hrest]
  · rw [octets_append, List.length_append, h.place]
  · rw [← hrest, octets_append, List.length_append]
    omega

end

section

variable {behind rest : List Char}

theorem Between.place_add (h : Between source c behind rest) :
    c.place + (octets rest).length = source.utf8ByteSize := by
  rw [h.place, ← List.length_append, ← octets_append, length_octets, ← h.text, String.ofList_toList]

/-- By induction on the pieces that were read: the cursor never stops inside a character. -/
theorem Reaches.between (h : Reaches source c) : ∃ behind rest, Between source c behind rest := by
  induction h with
  | first => exact ⟨[], source.toList, ⟨rfl, rfl⟩⟩
  | @next c after item _ hmore hread ih =>
    obtain ⟨behind, rest, hbetween⟩ := ih
    cases rest with
    | nil => exact absurd hbetween.place_add (Nat.ne_of_lt hmore)
    | cons x cs =>
      obtain ⟨rest, hnext, -⟩ := hbetween.next hread
      exact ⟨_, rest, hnext⟩

end

end Lox.Cursor
