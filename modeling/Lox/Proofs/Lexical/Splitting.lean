import Lox.Proofs.Lexical.Lexemes

/-!
# How a text splits

Every text is, in one way only, a row of gaps and readings. A gap is made of blanks and comments, and goes as far as
it can; a reading is the longest lexeme, or a character that starts none, or a string without an end. The scanner
yields one item for each reading, on the line where that ends, and then the end of the text.
-/

namespace Lox

/-- The first text is made of blanks and comments, if the second follows it. A comment goes up to the end
of its line. -/
inductive Gap : List Char → List Char → Prop
  | nil (rest : List Char) : Gap [] rest
  | blank {c : Char} {gap rest : List Char} : IsBlank c → Gap gap rest → Gap (c :: gap) rest
  | comment {body gap rest : List Char} : '\n' ∉ body → (∀ c ∈ (gap ++ rest).head?, c = '\n') →
      Gap gap rest → Gap ('/' :: '/' :: (body ++ gap)) rest

inductive Reading where
  | token (text : List Char) (kind : Kind)
  | unexpected (c : Char)
  | unterminated (contents : List Char)

namespace Reading

def text : Reading → List Char
  | token text _ => text
  | unexpected c => [c]
  | unterminated contents => '"' :: contents

/-- What the scanner yields for a reading that ends on this line. -/
def item (line : Nat) : Reading → Item
  | token text kind => .ok ⟨kind, String.ofList text, line⟩
  | unexpected c => .error (.lexical line (.unexpectedCharacter c))
  | unterminated _ => .error (.lexical line .unterminatedString)

/-- The reading is what stands at its place, if `rest` follows it. -/
inductive Before : Reading → List Char → Prop
  | token {text : List Char} {kind : Kind} {rest : List Char} : Lexeme text kind →
      (∀ text' kind', Lexeme text' kind' → text' <+: text ++ rest → text'.length ≤ text.length) →
      Before (.token text kind) rest
  | unexpected {c : Char} {rest : List Char} : c ≠ '"' →
      (∀ text kind, Lexeme text kind → ¬ text <+: c :: rest) → Before (.unexpected c) rest
  | unterminated {contents : List Char} : '"' ∉ contents → Before (.unterminated contents) []

end Reading

/-- A reading and the gap before it. -/
structure Part where
  gap : List Char
  reading : Reading

/-- The text is made of these parts and a last gap. -/
inductive Splits : List Char → List Part → List Char → Prop
  | last {gap : List Char} : Gap gap [] → Splits gap [] gap
  | next {gap rest last : List Char} {r : Reading} {parts : List Part} :
      Gap gap (r.text ++ rest) → ¬ StartsGap (r.text ++ rest) → r.Before rest →
      Splits rest parts last → Splits (gap ++ (r.text ++ rest)) (⟨gap, r⟩ :: parts) last

/-- The items of these parts, where `before` comes first: each is on the line where its reading ends. -/
def Part.items (before : List Char) : List Part → List Item
  | [] => []
  | p :: rest =>
    let upTo := before ++ p.gap ++ p.reading.text
    p.reading.item (1 + Scan.newlines upTo) :: Part.items upTo rest

theorem Part.length_items (before : List Char) (parts : List Part) :
    (Part.items before parts).length = parts.length := by
  induction parts generalizing before with
  | nil => rfl
  | cons p rest ih => exact congrArg (· + 1) (ih _)

open Scan

/-! ## One way only -/

theorem not_isBlank_slash : ¬ IsBlank '/' := by
  unfold IsBlank
  decide

theorem not_startsGap_nil : ¬ StartsGap [] := nofun

/-- A line ends where its end is first met. -/
theorem line_unique {body body' tail tail' : List Char} (hb : '\n' ∉ body) (hb' : '\n' ∉ body')
    (ht : ∀ c ∈ tail.head?, c = '\n') (ht' : ∀ c ∈ tail'.head?, c = '\n')
    (h : body ++ tail = body' ++ tail') : body = body' ∧ tail = tail' := by
  have hline : ∀ {body tail : List Char}, '\n' ∉ body → (∀ c ∈ tail.head?, c = '\n') →
      (body ++ tail).takeWhile (· ≠ '\n') = body := by
    intro body tail hb ht
    have hall : ∀ x ∈ body, decide (x ≠ '\n') = true :=
      fun x hx => decide_eq_true fun hn => hb (hn ▸ hx)
    rw [List.takeWhile_append_of_pos hall]
    cases tail with
    | nil => simp
    | cons c rest => simp [ht c rfl]
  have hbody : body = body' := by rw [← hline hb ht, h, hline hb' ht']
  subst hbody
  exact ⟨rfl, List.append_cancel_left h⟩

theorem Gap.startsGap {gap rest : List Char} (h : Gap gap rest) (hne : gap ≠ []) :
    StartsGap (gap ++ rest) := by
  cases h with
  | nil => exact absurd rfl hne
  | blank hc _ => exact .blank hc
  | comment _ _ _ => exact .comment

theorem Gap.unique {gap gap' rest rest' : List Char} (h : Gap gap rest) (h' : Gap gap' rest')
    (hr : ¬ StartsGap rest) (hr' : ¬ StartsGap rest') (heq : gap ++ rest = gap' ++ rest') :
    gap = gap' ∧ rest = rest' := by
  induction h generalizing gap' with
  | nil rest =>
    have hnil : gap' = [] := by
      by_contra hne
      rw [List.nil_append] at heq
      exact hr (heq ▸ h'.startsGap hne)
    subst hnil
    exact ⟨rfl, heq⟩
  | @blank c gap rest hc hg ih =>
    cases h' with
    | nil =>
      have hstarts := (Gap.blank hc hg).startsGap (List.cons_ne_nil _ _)
      rw [heq] at hstarts
      exact absurd hstarts hr'
    | blank _ h' =>
      obtain ⟨rfl, htail⟩ := List.cons.inj heq
      obtain ⟨rfl, rfl⟩ := ih h' hr htail
      exact ⟨rfl, rfl⟩
    | comment _ _ _ =>
      obtain ⟨rfl, -⟩ := List.cons.inj heq
      exact absurd hc not_isBlank_slash
  | @comment body gap rest hb ht hg ih =>
    cases h' with
    | nil =>
      have hstarts := (Gap.comment hb ht hg).startsGap (List.cons_ne_nil _ _)
      rw [heq] at hstarts
      exact absurd hstarts hr'
    | blank hc _ =>
      obtain ⟨rfl, -⟩ := List.cons.inj heq
      exact absurd hc not_isBlank_slash
    | @comment body' gap' _ hb' ht' h' =>
      have hbodies : body ++ gap ++ rest = body' ++ gap' ++ rest' :=
        (List.cons.inj (List.cons.inj heq).2).2
      rw [List.append_assoc, List.append_assoc] at hbodies
      obtain ⟨rfl, htail⟩ := line_unique hb hb' ht ht' hbodies
      obtain ⟨rfl, rfl⟩ := ih h' hr htail
      exact ⟨rfl, rfl⟩

/-- A lexeme that starts with a quote has another. -/
theorem Lexeme.quote_mem {cs : List Char} {kind : Kind} (h : Lexeme ('"' :: cs) kind) : '"' ∈ cs := by
  by_contra hq
  obtain ⟨last, hread⟩ := h.piece_eq 0
  have hdrop : cs.dropWhile (· ≠ '"') = [] :=
    List.dropWhile_eq_nil_iff.2 fun x hx => decide_eq_true fun hx' => hq (hx' ▸ hx)
  rw [piece_quote, stringPiece, hdrop] at hread
  cases hread

namespace Reading

variable {r r' : Reading} {rest rest' : List Char}

theorem Before.text_ne_nil (h : r.Before rest) : r.text ≠ [] := by
  cases h with
  | token hl _ => exact hl.ne_nil
  | unexpected _ _ => exact List.cons_ne_nil _ _
  | unterminated _ => exact List.cons_ne_nil _ _

theorem not_lexeme_of_unterminated {text contents : List Char} {kind : Kind} (hl : Lexeme text kind)
    (hq : '"' ∉ contents) : ¬ text <+: '"' :: contents := by
  intro hp
  cases text with
  | nil => exact hl.ne_nil rfl
  | cons c cs =>
    obtain ⟨rfl, hcs⟩ := List.cons_prefix_cons.1 hp
    exact hq (hcs.subset hl.quote_mem)

theorem Before.unique (h : r.Before rest) (h' : r'.Before rest')
    (heq : r.text ++ rest = r'.text ++ rest') : r = r' ∧ rest = rest' := by
  have hfront : r.text <+: r'.text ++ rest' := heq ▸ List.prefix_append _ _
  have hfront' : r'.text <+: r.text ++ rest := heq ▸ List.prefix_append _ _
  cases h with
  | token hl hmax =>
    cases h' with
    | token hl' hmax' =>
      have hlength := Nat.le_antisymm (hmax' _ _ hl hfront) (hmax _ _ hl' hfront')
      obtain ⟨rfl, rfl⟩ := List.append_inj (show _ ++ _ = _ ++ _ from heq) hlength
      rw [hl.kind_unique hl']
      exact ⟨rfl, rfl⟩
    | unexpected _ hnone => exact absurd hfront (hnone _ _ hl)
    | unterminated hq =>
      rw [List.append_nil] at hfront
      exact absurd hfront (not_lexeme_of_unterminated hl hq)
  | unexpected hc hnone =>
    cases h' with
    | token hl' _ => exact absurd hfront' (hnone _ _ hl')
    | unexpected _ _ =>
      obtain ⟨rfl, rfl⟩ := List.cons.inj heq
      exact ⟨rfl, rfl⟩
    | unterminated _ => exact absurd (List.cons.inj heq).1 hc
  | unterminated hq =>
    cases h' with
    | token hl' _ =>
      rw [List.append_nil] at hfront'
      exact absurd hfront' (not_lexeme_of_unterminated hl' hq)
    | unexpected hc _ => exact absurd (List.cons.inj heq).1.symm hc
    | unterminated _ =>
      rw [List.append_nil, List.append_nil] at heq
      obtain ⟨-, rfl⟩ := List.cons.inj heq
      exact ⟨rfl, rfl⟩

end Reading

theorem Splits.unique {cs last last' : List Char} {parts parts' : List Part}
    (h : Splits cs parts last) (h' : Splits cs parts' last') : parts = parts' ∧ last = last' := by
  induction h generalizing parts' with
  | @last gap hgap =>
    generalize hcs : gap = cs at h'
    cases h' with
    | last _ => exact ⟨rfl, rfl⟩
    | next hgap' hstart hr _ =>
      have heq := hgap.unique hgap' not_startsGap_nil hstart (by rw [List.append_nil]; exact hcs)
      exact absurd (List.append_eq_nil_iff.1 heq.2.symm).1 hr.text_ne_nil
  | @next gap rest last r parts hgap hstart hr _ ih =>
    generalize hcs : gap ++ (r.text ++ rest) = cs at h'
    cases h' with
    | last hgap' =>
      have heq := hgap.unique hgap' hstart not_startsGap_nil (by rw [List.append_nil]; exact hcs)
      exact absurd (List.append_eq_nil_iff.1 heq.2).1 hr.text_ne_nil
    | next hgap' hstart' hr' h' =>
      obtain ⟨rfl, heq⟩ := hgap.unique hgap' hstart hstart' hcs
      obtain ⟨rfl, rfl⟩ := hr.unique hr' heq
      obtain ⟨rfl, rfl⟩ := ih h'
      exact ⟨rfl, rfl⟩

/-! ## What the scanner reads at one place -/

/-- A gap that starts with this text, where it started with nothing. -/
theorem Splits.widen {text rest last : List Char} {parts : List Part} (h : Splits rest parts last)
    (hgap : ∀ {gap rest'}, gap ++ rest' = rest → Gap gap rest' → Gap (text ++ gap) rest') :
    ∃ parts' last', Splits (text ++ rest) parts' last' ∧
      ∀ before, Part.items before parts' = Part.items (before ++ text) parts := by
  cases h with
  | last hg =>
    exact ⟨[], _, .last (hgap (List.append_nil _) hg), fun _ => rfl⟩
  | @next gap rest _ r parts hg hstart hr hrest =>
    refine ⟨⟨text ++ gap, r⟩ :: parts, last, ?_, fun before => ?_⟩
    · rw [← List.append_assoc]
      exact .next (hgap rfl hg) hstart hr hrest
    · simp only [Part.items, List.append_assoc]

theorem Scan.piece_gap {c : Char} {cs : List Char} (h : StartsGap (c :: cs)) (line : Nat)
    {rest : List Char} (hrest : (piece line c cs).text ++ rest = c :: cs) :
    (piece line c cs).item = none ∧ ∀ {gap rest'}, gap ++ rest' = rest → Gap gap rest' →
      Gap ((piece line c cs).text ++ gap) rest' := by
  cases h with
  | blank hc =>
    obtain ⟨hitem, htext⟩ := piece_blank hc line cs
    rw [htext]
    exact ⟨hitem, fun _ hg => .blank hc hg⟩
  | @comment cs =>
    have hcs : cs.takeWhile (· ≠ '\n') ++ rest = cs :=
      (List.cons.inj (List.cons.inj hrest).2).2
    have hdrop : rest = cs.dropWhile (· ≠ '\n') := by
      refine List.append_cancel_left (hcs.trans ?_)
      exact List.takeWhile_append_dropWhile.symm
    refine ⟨rfl, fun hjoin hg => .comment ?_ ?_ hg⟩
    · intro hmem
      simpa using List.mem_takeWhile_imp hmem
    · rw [hjoin, hdrop]
      intro c hc
      have hnot := List.head?_dropWhile_not (· ≠ '\n') cs
      rw [hc] at hnot
      simpa using hnot

/-- What a lexeme can start with. -/
theorem Lexeme.first {c : Char} {cs : List Char} {kind : Kind} (h : Lexeme (c :: cs) kind) :
    c = '"' ∨ c.isDigit = true ∨ isLetter c = true ∨ (mark? c).isSome = true := by
  generalize htext : c :: cs = text at h
  cases h with
  | mark s => cases s <;> cases htext <;> exact .inr (.inr (.inr rfl))
  | keyword k hk =>
    obtain ⟨x, xs, rfl, hx, -⟩ := Keyword.word_shape hk
    cases htext
    exact .inr (.inr (.inl hx))
  | identifier hx _ _ =>
    cases htext
    exact .inr (.inr (.inl hx))
  | integer _ hd =>
    subst htext
    exact .inr (.inl (hd c List.mem_cons_self))
  | @decimal digits fraction hne hd _ _ =>
    cases digits with
    | nil => exact absurd rfl hne
    | cons x xs =>
      obtain ⟨rfl, -⟩ := List.cons.inj htext
      exact .inr (.inl (hd c List.mem_cons_self))
  | string _ =>
    cases htext
    exact .inl rfl

namespace Scan

variable {c : Char} {cs rest : List Char} {line : Nat}

/-- What is read as a token is the longest that there is. -/
theorem before_of_found {text : List Char} {kind : Kind} {last : Nat}
    (hread : piece line c cs = found kind text last) (hl : Lexeme text kind)
    (hrest : text ++ rest = c :: cs) : (Reading.token text kind).Before rest := by
  refine .token hl fun text' kind' hl' hp => ?_
  have hle := hl'.length_le_piece (hrest ▸ hp) line
  rwa [hread] at hle

theorem stringPiece_reading (hrest : (stringPiece line cs).text ++ rest = '"' :: cs) :
    ∃ r : Reading, r.text = (stringPiece line cs).text ∧
      (stringPiece line cs).item = some (r.item (stringPiece line cs).line) ∧ r.Before rest := by
  have hopen : '"' ∉ cs.takeWhile (· ≠ '"') := fun hmem => by
    simpa using List.mem_takeWhile_imp hmem
  have hcs : cs.takeWhile (· ≠ '"') ++ cs.dropWhile (· ≠ '"') = cs :=
    List.takeWhile_append_dropWhile
  cases hd : cs.dropWhile (· ≠ '"') with
  | nil =>
    rw [hd, List.append_nil] at hcs
    rw [hcs] at hopen
    have hread : stringPiece line cs =
        failed .unterminatedString ('"' :: cs) (line + newlines cs) := by
      unfold stringPiece
      rw [hd, hcs]
    rw [hread] at hrest ⊢
    have hnil : rest = [] := List.append_cancel_left (hrest.trans (List.append_nil _).symm)
    subst hnil
    exact ⟨.unterminated cs, rfl, rfl, .unterminated hopen⟩
  | cons quote after =>
    have hq : quote = '"' := by
      have hnot := List.head?_dropWhile_not (· ≠ '"') cs
      rw [hd] at hnot
      simpa using hnot
    subst hq
    rw [hd] at hcs
    have hread := stringPiece_closed hopen line after
    rw [hcs] at hread
    rw [hread] at hrest
    have hbefore := before_of_found ((piece_quote line cs).trans hread) (.string hopen) hrest
    rw [hread]
    exact ⟨_, rfl, rfl, hbefore⟩

theorem symbolPiece_reading (hpiece : piece line c cs = symbolPiece line c cs) (hquote : c ≠ '"')
    (hdigit : ¬ c.isDigit = true) (hletter : ¬ isLetter c = true)
    (hrest : (symbolPiece line c cs).text ++ rest = c :: cs) :
    ∃ r : Reading, r.text = (symbolPiece line c cs).text ∧
      (symbolPiece line c cs).item = some (r.item (symbolPiece line c cs).line) ∧ r.Before rest := by
  have hmark : ∀ {s : Symbol} {text : List Char}, s.spelling = text →
      symbolPiece line c cs = found (.symbol s) text line →
      ∃ r : Reading, r.text = (symbolPiece line c cs).text ∧
        (symbolPiece line c cs).item = some (r.item (symbolPiece line c cs).line) ∧ r.Before rest := by
    rintro s _ rfl hread
    rw [hread] at hrest
    have hbefore := before_of_found (hpiece.trans hread) (.mark s) hrest
    rw [hread]
    exact ⟨_, rfl, rfl, hbefore⟩
  by_cases hlong : ∃ after s, cs = '=' :: after ∧ markEqual? c = some s
  · obtain ⟨after, s, rfl, hs⟩ := hlong
    exact hmark (spelling_of_markEqual? hs) (by simp only [symbolPiece, hs])
  · have hshort : (∀ s, mark? c = some s → symbolPiece line c cs = found (.symbol s) [c] line) ∧
        (mark? c = none → symbolPiece line c cs = failed (.unexpectedCharacter c) [c] line) := by
      unfold symbolPiece
      split
      case h_1 after s hs => exact absurd ⟨after, s, rfl, hs⟩ hlong
      case h_2 => exact ⟨fun s hm => by rw [hm], fun hm => by rw [hm]⟩
    cases hm : mark? c with
    | some s => exact hmark (spelling_of_mark? hm) (hshort.1 s hm)
    | none =>
      rw [hshort.2 hm] at hrest ⊢
      obtain ⟨-, rfl⟩ := List.cons.inj hrest
      refine ⟨.unexpected c, rfl, rfl, .unexpected hquote fun text kind hl hp => ?_⟩
      cases text with
      | nil => exact hl.ne_nil rfl
      | cons x xs =>
        obtain ⟨rfl, -⟩ := List.cons_prefix_cons.1 hp
        have hfirst := hl.first
        rw [hm] at hfirst
        simp [hquote, hdigit, hletter] at hfirst

/-- Where no gap starts, the scanner reads what stands there. -/
theorem piece_reading (h : ¬ StartsGap (c :: cs)) (line : Nat)
    (hrest : (piece line c cs).text ++ rest = c :: cs) :
    ∃ r : Reading, r.text = (piece line c cs).text ∧
      (piece line c cs).item = some (r.item (piece line c cs).line) ∧ r.Before rest := by
  have hpiece := piece_of_not_startsGap h line
  split at hpiece
  case isTrue hc =>
    subst hc
    rw [hpiece] at hrest ⊢
    exact stringPiece_reading hrest
  case isFalse hquote =>
  split at hpiece
  case isTrue hdigit =>
    obtain ⟨text, kind, hread, hl⟩ := numberPiece_lexeme hdigit line cs
    have hread := hpiece.trans hread
    rw [hread] at hrest ⊢
    exact ⟨.token text kind, rfl, rfl, before_of_found hread hl hrest⟩
  case isFalse hdigit =>
  split at hpiece
  case isTrue hletter =>
    have hl := lexeme_word hletter fun x (hx : x ∈ cs.takeWhile isWordRest) => List.mem_takeWhile_imp hx
    rw [hpiece] at hrest ⊢
    exact ⟨_, rfl, rfl, before_of_found hpiece hl hrest⟩
  case isFalse hletter =>
    rw [hpiece] at hrest ⊢
    exact symbolPiece_reading hpiece hquote hdigit hletter hrest

/-! ## Whole texts -/

/-- The text from some place on splits, and the scanner yields its items. -/
theorem splits_items (before cs : List Char) :
    ∃ parts last, Splits cs parts last ∧ items cs.length (1 + newlines before) cs =
      Part.items before parts ++ [.ok (eofToken (1 + newlines (before ++ cs)))] := by
  induction hn : cs.length using Nat.strongRecOn generalizing before cs with
  | _ n ih =>
    cases cs with
    | nil =>
      subst hn
      rw [List.append_nil]
      exact ⟨[], [], .last (.nil []), rfl⟩
    | cons c cs =>
      obtain ⟨rest, hrest⟩ := piece_text (1 + newlines before) c cs
      have hpos := List.length_pos_iff.2 (piece_text_ne_nil (1 + newlines before) c cs)
      have hline := piece_line (1 + newlines before) c cs
      have hlength : (piece (1 + newlines before) c cs).text.length + rest.length = cs.length + 1 := by
        rw [← List.length_append, hrest, List.length_cons]
      generalize hpiece : piece (1 + newlines before) c cs = p at hrest hpos hline hlength
      have hitems := items_piece hpiece rest hrest
      rw [Nat.add_assoc, ← newlines_append] at hline
      rw [hline] at hitems
      obtain ⟨parts, last, hsplits, hlater⟩ := ih rest.length (by
        rw [List.length_cons] at hn
        omega) (before ++ p.text) rest rfl
      rw [hlater, List.append_assoc before, hrest] at hitems
      rw [← hn, hitems, ← hrest]
      by_cases hgap : StartsGap (c :: cs)
      · obtain ⟨hitem, hwiden⟩ := piece_gap hgap (1 + newlines before) (hpiece ▸ hrest)
        rw [hpiece] at hitem hwiden
        obtain ⟨parts', last', hsplits', hsame⟩ := hsplits.widen hwiden
        refine ⟨parts', last', hsplits', ?_⟩
        rw [hitem, hsame]
        rfl
      · obtain ⟨r, htext, hitem, hbefore⟩ := piece_reading hgap (1 + newlines before) (hpiece ▸ hrest)
        rw [hpiece] at htext hitem
        refine ⟨⟨[], r⟩ :: parts, last, ?_, ?_⟩
        · rw [← htext, ← List.nil_append (r.text ++ rest)]
          refine .next (.nil _) ?_ hbefore hsplits
          rw [htext, hrest]
          exact hgap
        · rw [hitem, hline, Part.items, List.append_nil, htext]
          rfl

theorem splits_scan (source : String) : ∃ parts last, Splits source.toList parts last ∧
    Token.scan source = Part.items [] parts ++ [.ok (eofToken (1 + newlines source.toList))] := by
  obtain ⟨parts, last, hsplits, hitems⟩ := splits_items [] source.toList
  refine ⟨parts, last, hsplits, ?_⟩
  unfold Token.scan
  rw [← String.length_toList]
  exact hitems

end Scan

end Lox
