import Lox.Proofs.Listing.Trees
import Lox.Proofs.Numerals.Texts

/-!
# Reading listings

A legible and plain tree can be read back from its phrase, but for identities and lines. The first part of a group and
the number of parts tell which construct it is, and the kind of a word is the kind that the scanner gives it. A number
is read back since no other finite number has its text.
-/

namespace Lox

open Phrase

/-! ## Reading phrases -/

/-- The kind of token that the scanner reads a word as. -/
def Kind.ofWord (w : String) : Kind :=
  match w.toList with
  | [] => .eof
  | c :: cs =>
    match (Scan.piece 0 c cs).item with
    | some (.ok t) => t.kind
    | _ => .eof

def Token.ofWord (w : String) : Token := ⟨.ofWord w, w, 0⟩

/-- A name or a keyword is read as what the scanner takes it for; any other word is a number. -/
noncomputable def Expr.ofWord (w : String) : Expr :=
  match Kind.ofWord w with
  | .identifier => .var 0 (.ofWord w)
  | .keyword .nilKw => .literal .nil
  | .keyword .trueKw => .literal (.bool true)
  | .keyword .falseKw => .literal (.bool false)
  | .keyword .thisKw => .thisRef 0 (.ofWord w)
  | _ => .literal (.number (Function.invFunOn Numeral.listing {x | x.isFinite = true} w))

/-- The name of a variable. -/
def Expr.named : Expr → Token
  | .var _ name => name
  | _ => .ofWord ""

/-- An assignment to a variable or to a property. -/
def Expr.assigned : Expr → Expr → Expr
  | .var _ name, value => .assign 0 name value
  | .get object name, value => .set object name value
  | other, _ => other

/-- The expression of which the first word and the other parts are known. -/
def Expr.assemble (head : String) (parts : List Expr) : Expr :=
  match parts with
  | [] => .literal .nil
  | [e] =>
    if head = "call" then .call e (.ofWord ")") []
    else if head = "group" then .group e
    else if head = "super" then .superRef 0 (.ofWord "super") e.named
    else .unary (.ofWord head) e
  | e :: f :: rest =>
    if head = "call" then .call e (.ofWord ")") (f :: rest)
    else if head = "." then .get e f.named
    else if head = "=" then e.assigned f
    else if head = "and" ∨ head = "or" then .logical e (.ofWord head) f
    else .binary e (.ofWord head) f

mutual

/-- The expression that is listed so. What is no listing stands for `nil`. -/
noncomputable def Phrase.expr : Phrase → Expr
  | .word w => .ofWord w
  | .group [] => .literal .nil
  | .group (head :: parts) => .assemble head.text (Phrase.exprs parts)

noncomputable def Phrase.exprs : List Phrase → List Expr
  | [] => []
  | o :: rest => o.expr :: Phrase.exprs rest

end

/-- The words in brackets. -/
def Phrase.tokens : Phrase → List Token
  | .word _ => []
  | .group parts => parts.map fun p => .ofWord p.text

/-- The methods among the parts of a class. -/
def Stmt.routines : List Stmt → List Routine
  | .function decl :: rest => decl :: Stmt.routines rest
  | _ => []

/-- The statement of which the first word and the other parts are known, these as phrases, as expressions and as
statements. -/
def Stmt.assemble (head : String) (parts : List Phrase) (es : List Expr) (ss : List Stmt) : Stmt :=
  let e := es.headD (.literal .nil)
  let s := ss.getD 1 (.block [])
  let second := parts.getD 1 (.group [])
  if head = ";" then .expr e
  else if head = "print" then .print e
  else if head = "var" then .varDecl e.named es[1]?
  else if head = "block" then .block ss
  else if head = "if" then .branch e s ss[2]?
  else if head = "while" then .loop e s
  else if head = "break" then .breakLoop (.ofWord "break")
  else if head = "fun" then .function ⟨e.named, second.tokens, ss.drop 2⟩
  else if head = "return" then .returnWith (.ofWord "return") es[0]?
  else if head = "class" then
    if second.text = "<" then .classDecl e.named es[2]? (Stmt.routines (ss.drop 3))
    else .classDecl e.named none (Stmt.routines (ss.drop 1))
  else .execute (.ofWord "execute") e

mutual

/-- The statement that is listed so. What is no listing stands for an empty block. -/
noncomputable def Phrase.stmt : Phrase → Stmt
  | .word _ => .block []
  | .group [] => .block []
  | .group (head :: parts) => .assemble head.text parts (Phrase.exprs parts) (Phrase.stmts parts)

noncomputable def Phrase.stmts : List Phrase → List Stmt
  | [] => []
  | o :: rest => o.stmt :: Phrase.stmts rest

end

/-! ## Words -/

theorem Kind.ofWord_of_lexeme {w : String} {kind : Kind} (h : Lexeme w.toList kind) : Kind.ofWord w = kind := by
  unfold ofWord
  cases hw : w.toList with
  | nil => exact absurd hw h.ne_nil
  | cons c cs =>
    rw [hw] at h
    obtain ⟨last, hread⟩ := h.piece_eq 0
    simp only [hread, Scan.found]

namespace Token

variable {t : Token}

theorem Is.ofWord {kind : Kind} (h : t.Is kind) : Token.ofWord t.lexeme = t.bare := by
  rw [Token.ofWord, Kind.ofWord_of_lexeme h.2, ← h.1]
  rfl

theorem Is.word {k : Keyword} (h : t.Is (.keyword k)) : t.lexeme = k.word := by
  obtain ⟨-, hlexeme⟩ := h
  generalize htext : t.lexeme.toList = text at hlexeme
  cases hlexeme with
  | keyword _ hk => rw [hk, ← htext, String.ofList_toList]

theorem Is.ofKeyword {k : Keyword} (h : t.Is (.keyword k)) : Token.ofWord k.word = t.bare := h.word ▸ h.ofWord

theorem Is.spelling {s : Symbol} (h : t.Is (.symbol s)) : t.lexeme = String.ofList s.spelling := by
  obtain ⟨-, hlexeme⟩ := h
  generalize htext : t.lexeme.toList = text at hlexeme
  cases hlexeme with
  | mark => rw [← htext, String.ofList_toList]

theorem IsMark.lexeme_mem {marks : List Symbol} (h : t.IsMark marks) :
    t.lexeme ∈ marks.map fun s => String.ofList s.spelling := by
  obtain ⟨s, hs, hmark⟩ := h
  exact List.mem_map.2 ⟨s, hs, hmark.spelling.symm⟩

theorem IsMark.lexeme_ne {marks : List Symbol} (h : t.IsMark marks) {w : String}
    (hw : w ∉ marks.map fun s => String.ofList s.spelling) : t.lexeme ≠ w :=
  fun heq => hw (heq ▸ h.lexeme_mem)

theorem IsMark.ofWord {marks : List Symbol} (h : t.IsMark marks) : Token.ofWord t.lexeme = t.bare := by
  obtain ⟨s, -, hmark⟩ := h
  exact hmark.ofWord

theorem Is.isWord (h : t.Is .identifier) : IsWord t.lexeme := by
  obtain ⟨-, hlexeme⟩ := h
  have hrest : ∀ c, Scan.isWordRest c = true → isDivider c = false :=
    fun c hc => isDivider_eq_false hc rfl rfl rfl
  unfold IsWord
  generalize t.lexeme.toList = text at hlexeme
  cases hlexeme with
  | identifier hc hcs _ =>
    refine ⟨List.cons_ne_nil _ _, List.forall_mem_cons.2 ⟨hrest _ ?_, fun c h => hrest c (hcs c h)⟩⟩
    rw [Scan.isWordRest, hc, Bool.true_or]

theorem Is.exprOfWord (h : t.Is .identifier) : Expr.ofWord t.lexeme = .var 0 t.bare := by
  rw [Expr.ofWord, Kind.ofWord_of_lexeme h.2, h.ofWord]

end Token

/-- A word that starts with a digit is read as a number, if perhaps not whole. -/
theorem Kind.ofWord_digit {w : String} {c : Char} {cs : List Char} (hw : w.toList = c :: cs) (hc : c.isDigit = true) :
    ∃ x, Kind.ofWord w = .number x := by
  have hnumber : ∃ x text, Scan.piece 0 c cs = Scan.found (.number x) text 0 := by
    rw [Scan.piece_digit hc]
    unfold Scan.numberPiece
    dsimp only
    split
    · split <;> exact ⟨_, _, rfl⟩
    · exact ⟨_, _, rfl⟩
  obtain ⟨x, text, hread⟩ := hnumber
  unfold ofWord
  simp only [hw, hread]
  exact ⟨x, rfl⟩

theorem Kind.ofWord_minus {w : String} {cs : List Char} (hw : w.toList = '-' :: cs) :
    Kind.ofWord w = .symbol .minus := by
  have hread : Scan.piece 0 '-' cs = Scan.found (.symbol .minus) ['-'] 0 :=
    Scan.symbolPiece_of_mark? rfl (.inr rfl)
  unfold ofWord
  simp only [hw, hread]
  rfl

namespace Literal

section

variable {x : Float} (h : x.isFinite = true)
include h

theorem number_isWord : IsWord (Numeral.listing x) := by
  obtain ⟨negative, m, hform⟩ := Numeral.exists_finite h
  obtain ⟨text, v, htext, hspells, -⟩ := Numeral.listing_of_finite hform
  have hfigures : ∀ c ∈ text, isDivider c = false := by
    intro c hc
    rcases hspells.figure c hc with hdigit | rfl
    · exact isDivider_eq_false hdigit rfl rfl rfl
    · rfl
  unfold IsWord
  rw [htext]
  split
  · exact ⟨List.cons_ne_nil _ _, List.forall_mem_cons.2 ⟨rfl, hfigures⟩⟩
  · obtain ⟨c, rest, rfl, -⟩ := hspells.first
    exact ⟨List.cons_ne_nil _ _, hfigures⟩

theorem number_ofWord : Expr.ofWord (Numeral.listing x) = .literal (.number x) := by
  obtain ⟨negative, m, hform⟩ := Numeral.exists_finite h
  obtain ⟨text, v, htext, hspells, -⟩ := Numeral.listing_of_finite hform
  have hinjective : Set.InjOn Numeral.listing {x | x.isFinite = true} :=
    fun x hx y hy heq => Numeral.eq_of_listing_eq hx hy heq
  have hback := hinjective.leftInvOn_invFunOn h
  have hkind : (∃ y, Kind.ofWord (Numeral.listing x) = .number y) ∨
      Kind.ofWord (Numeral.listing x) = .symbol .minus := by
    split at htext
    · exact .inr (Kind.ofWord_minus htext)
    · obtain ⟨c, rest, rfl, hc⟩ := hspells.first
      exact .inl (Kind.ofWord_digit htext hc)
  unfold Expr.ofWord
  rcases hkind with ⟨y, hkind⟩ | hkind <;> rw [hkind] <;> simp only [hback]

end

variable {v : Literal}

theorem isWord (h : v.plain = true) : IsWord v.listing := by
  match v with
  | .nil => decide
  | .bool true => decide
  | .bool false => decide
  | .number x => exact number_isWord h

theorem ofWord (h : v.plain = true) : Expr.ofWord v.listing = .literal v := by
  match v with
  | .nil => rfl
  | .bool true => rfl
  | .bool false => rfl
  | .number x => exact number_ofWord h

end Literal

/-! ## Reading trees back -/

namespace Phrase

/-- The phrase is legible, and the expression is read back from it. -/
def Tells (o : Phrase) (e : Expr) : Prop := o.Legible ∧ o.expr = e.bare

def AllTell (os : List Phrase) (es : List Expr) : Prop := AllLegible os ∧ exprs os = Expr.allBare es

theorem AllTell.nil : AllTell [] [] := ⟨trivial, rfl⟩

theorem AllTell.cons {o : Phrase} {os : List Phrase} {e : Expr} {es : List Expr} (h : o.Tells e)
    (hs : AllTell os es) : AllTell (o :: os) (e :: es) := by
  refine ⟨⟨h.1, hs.1⟩, ?_⟩
  rw [exprs, Expr.allBare, h.2, hs.2]

/-- A group tells what is put together from its parts. -/
theorem Tells.group {head : String} {parts : List Phrase} {es : List Expr} {e : Expr} (hhead : IsWord head)
    (hparts : AllTell parts es) (he : Expr.assemble head (Expr.allBare es) = e.bare) :
    Tells (.group (.word head :: parts)) e := by
  refine ⟨⟨hhead, hparts.1⟩, ?_⟩
  rw [expr, hparts.2, text, he]

/-- A name stands for a variable. -/
theorem Tells.name {name : Token} (h : name.Is .identifier) (id : Nat) :
    Tells (.word name.lexeme) (.var id name) :=
  ⟨h.isWord, h.exprOfWord⟩

theorem Tells.property {o : Phrase} {object : Expr} {name : Token} (ho : o.Tells object)
    (hname : name.Is .identifier) : Tells (.group [.word ".", o, .word name.lexeme]) (.get object name) := by
  apply Tells.group (by decide) (.cons ho (.cons (.name hname 0) .nil))
  simp [Expr.assemble, Expr.allBare, Expr.bare, Expr.named]

end Phrase

mutual

theorem Expr.phrase_tells {e : Expr} (h : e.Legible) (hp : e.plain = true) : e.phrase.Tells e := by
  match e with
  | .literal v => exact ⟨Literal.isWord hp, Literal.ofWord hp⟩
  | .group e =>
    have he : e.phrase.Tells e := Expr.phrase_tells h hp
    apply Tells.group (by decide) (.cons he .nil)
    simp [Expr.assemble, Expr.allBare, Expr.bare]
  | .unary op e =>
    obtain ⟨hop, h⟩ := h
    have he : e.phrase.Tells e := Expr.phrase_tells h hp
    have hword : ∀ w ∈ [Symbol.bang, .minus].map fun s => String.ofList s.spelling, IsWord w := by decide
    apply Tells.group (hword _ hop.lexeme_mem) (.cons he .nil)
    have hcall : op.lexeme ≠ "call" := hop.lexeme_ne (by decide)
    have hgroup : op.lexeme ≠ "group" := hop.lexeme_ne (by decide)
    have hsuper : op.lexeme ≠ "super" := hop.lexeme_ne (by decide)
    simp [Expr.assemble, Expr.allBare, Expr.bare, hcall, hgroup, hsuper, hop.ofWord]
  | .binary l op r =>
    obtain ⟨hop, hl, hr⟩ := h
    obtain ⟨hpl, hpr⟩ := Bool.and_eq_true_iff.1 hp
    have hl : l.phrase.Tells l := Expr.phrase_tells hl hpl
    have hr : r.phrase.Tells r := Expr.phrase_tells hr hpr
    have hword : ∀ w ∈ Symbol.binary.map fun s => String.ofList s.spelling, IsWord w := by decide
    apply Tells.group (hword _ hop.lexeme_mem) (.cons hl (.cons hr .nil))
    have hcall : op.lexeme ≠ "call" := hop.lexeme_ne (by decide)
    have hdot : op.lexeme ≠ "." := hop.lexeme_ne (by decide)
    have hequal : op.lexeme ≠ "=" := hop.lexeme_ne (by decide)
    have hand : op.lexeme ≠ "and" := hop.lexeme_ne (by decide)
    have hor : op.lexeme ≠ "or" := hop.lexeme_ne (by decide)
    simp [Expr.assemble, Expr.allBare, Expr.bare, hcall, hdot, hequal, hand, hor, hop.ofWord]
  | .logical l op r =>
    obtain ⟨hop, hl, hr⟩ := h
    obtain ⟨hpl, hpr⟩ := Bool.and_eq_true_iff.1 hp
    have hl : l.phrase.Tells l := Expr.phrase_tells hl hpl
    have hr : r.phrase.Tells r := Expr.phrase_tells hr hpr
    rcases hop with hop | hop <;>
    · have hback := hop.ofWord
      rw [hop.word] at hback
      rw [Expr.phrase, hop.word]
      apply Tells.group (by decide) (.cons hl (.cons hr .nil))
      simp [Expr.assemble, Expr.allBare, Expr.bare, Keyword.word, ← hback]
  | .var id name => exact .name h id
  | .assign _ name e =>
    have he : e.phrase.Tells e := Expr.phrase_tells h.2 hp
    apply Tells.group (by decide) (.cons (.name h.1 0) (.cons he .nil))
    simp [Expr.assemble, Expr.allBare, Expr.bare, Expr.assigned]
  | .call callee paren args =>
    obtain ⟨hparen, hcallee, hargs⟩ := h
    obtain ⟨hpc, hpa⟩ := Bool.and_eq_true_iff.1 hp
    have hcallee : callee.phrase.Tells callee := Expr.phrase_tells hcallee hpc
    have hargs : AllTell (Expr.phrases args) args := Expr.phrases_tell hargs hpa
    have hback : Token.ofWord ")" = paren.bare := by rw [← hparen.ofWord, hparen.spelling]; rfl
    apply Tells.group (by decide) (.cons hcallee hargs)
    cases args <;> simp [Expr.assemble, Expr.allBare, Expr.bare, hback]
  | .get object name => exact .property (Expr.phrase_tells h.2 hp) h.1
  | .set object name e =>
    obtain ⟨hname, hobject, he⟩ := h
    obtain ⟨hpo, hpe⟩ := Bool.and_eq_true_iff.1 hp
    have hobject : object.phrase.Tells object := Expr.phrase_tells hobject hpo
    have he : e.phrase.Tells e := Expr.phrase_tells he hpe
    apply Tells.group (by decide) (.cons (.property hobject hname) (.cons he .nil))
    simp [Expr.assemble, Expr.allBare, Expr.bare, Expr.assigned]
  | .thisRef _ keyword =>
    have hback : Token.ofWord "this" = keyword.bare := h.ofKeyword
    refine ⟨(by decide : IsWord "this"), ?_⟩
    rw [Expr.bare, ← hback]
    rfl
  | .superRef _ keyword method =>
    obtain ⟨hkeyword, hmethod⟩ := h
    have hback : Token.ofWord "super" = keyword.bare := hkeyword.ofKeyword
    apply Tells.group (by decide) (.cons (.name hmethod 0) .nil)
    simp [Expr.assemble, Expr.allBare, Expr.bare, Expr.named, hback]

theorem Expr.phrases_tell {es : List Expr} (h : Expr.AllLegible es) (hp : Expr.allPlain es = true) :
    AllTell (Expr.phrases es) es := by
  match es with
  | [] => exact .nil
  | e :: rest =>
    obtain ⟨hp, hps⟩ := Bool.and_eq_true_iff.1 hp
    exact .cons (Expr.phrase_tells h.1 hp) (Expr.phrases_tell h.2 hps)

end

theorem Expr.optionPhrase_tells {e : Option Expr} (h : Expr.OptionLegible e) (hp : Expr.optionPlain e = true) :
    Phrase.AllLegible (Expr.optionPhrase e) ∧ exprs (Expr.optionPhrase e) = (e.map Expr.bare).toList := by
  cases e with
  | none => exact ⟨trivial, rfl⟩
  | some e =>
    obtain ⟨hlegible, hread⟩ := Expr.phrase_tells h hp
    exact ⟨⟨hlegible, trivial⟩, congrArg (fun e => [e]) hread⟩

namespace Phrase

def TellsStmt (o : Phrase) (s : Stmt) : Prop := o.Legible ∧ o.stmt = s.bare

def AllTellStmts (os : List Phrase) (ss : List Stmt) : Prop := AllLegible os ∧ stmts os = Stmt.allBare ss

theorem TellsStmt.group {head : String} {parts : List Phrase} {s : Stmt} (hhead : IsWord head)
    (hparts : AllLegible parts) (hs : Stmt.assemble head parts (exprs parts) (stmts parts) = s.bare) :
    TellsStmt (.group (.word head :: parts)) s :=
  ⟨⟨hhead, hparts⟩, hs⟩

theorem legible_params {params : List Token} (h : ∀ p ∈ params, p.Is .identifier) :
    AllLegible (Token.phrases params) := by
  induction params with
  | nil => trivial
  | cons p rest ih =>
    obtain ⟨hp, hrest⟩ := List.forall_mem_cons.1 h
    exact ⟨hp.isWord, ih hrest⟩

theorem tokens_params {params : List Token} (h : ∀ p ∈ params, p.Is .identifier) :
    tokens (.group (Token.phrases params)) = params.map Token.bare := by
  rw [tokens, Token.phrases, List.map_map]
  exact List.map_congr_left fun p hp => (h p hp).ofWord

theorem TellsStmt.function {name : Token} {params : List Token} {body : List Stmt} {os : List Phrase}
    (hname : name.Is .identifier) (hparams : ∀ p ∈ params, p.Is .identifier) (hbody : AllTellStmts os body) :
    TellsStmt (.group (.word "fun" :: .word name.lexeme :: .group (Token.phrases params) :: os))
      (.function ⟨name, params, body⟩) := by
  refine TellsStmt.group (by decide) ⟨hname.isWord, legible_params hparams, hbody.1⟩ ?_
  show Stmt.function ⟨(Expr.ofWord name.lexeme).named, tokens (.group (Token.phrases params)), stmts os⟩ = _
  rw [hname.exprOfWord, tokens_params hparams, hbody.2]
  rfl

end Phrase

/-- A method does not look like the mark before a superclass. -/
theorem Routine.second_ne {o : Phrase} (methods : List Routine) :
    ((o :: Routine.phrases methods).getD 1 (.group [])).text ≠ "<" := by
  cases methods with
  | nil => exact text_group_ne (by decide) _
  | cons m rest => cases m; exact text_group_ne (by decide) _

theorem Stmt.routines_map (rs : List Routine) : Stmt.routines (rs.map .function) = rs := by
  induction rs with
  | nil => rfl
  | cons r rest ih => rw [List.map_cons, routines, ih]

mutual

theorem Stmt.phrase_tells : (s : Stmt) → s.Legible → s.plain = true → s.phrase.TellsStmt s
  | .expr e, h, hp => by
    obtain ⟨hlegible, hread⟩ := Expr.phrase_tells h hp
    refine TellsStmt.group (by decide) ⟨hlegible, trivial⟩ ?_
    simp [Stmt.assemble, exprs, hread, Stmt.bare]
  | .print e, h, hp => by
    obtain ⟨hlegible, hread⟩ := Expr.phrase_tells h hp
    refine TellsStmt.group (by decide) ⟨hlegible, trivial⟩ ?_
    simp [Stmt.assemble, exprs, hread, Stmt.bare]
  | .varDecl name init, h, hp => by
    obtain ⟨hlegible, hread⟩ := Expr.optionPhrase_tells h.2 hp
    refine TellsStmt.group (by decide) ⟨h.1.isWord, hlegible⟩ ?_
    cases init <;> simp [Stmt.assemble, exprs, hread, Stmt.bare, Phrase.expr, h.1.exprOfWord, Expr.named]
  | .block body, h, hp => by
    have hbody : AllTellStmts (Stmt.phrases body) body := Stmt.phrases_tell body h hp
    refine TellsStmt.group (by decide) hbody.1 ?_
    simp [Stmt.assemble, hbody.2, Stmt.bare]
  | .branch cond yes none, h, hp => by
    obtain ⟨hpc, hpy⟩ := Bool.and_eq_true_iff.1 hp
    have hcond := Expr.phrase_tells h.1 hpc
    have hyes : yes.phrase.TellsStmt yes := Stmt.phrase_tells yes h.2 hpy
    refine TellsStmt.group (by decide) ⟨hcond.1, hyes.1, trivial⟩ ?_
    simp [Stmt.assemble, exprs, stmts, hcond.2, hyes.2, Stmt.bare]
  | .branch cond yes (some no), h, hp => by
    obtain ⟨hpc, hpb⟩ := Bool.and_eq_true_iff.1 hp
    obtain ⟨hpy, hpn⟩ := Bool.and_eq_true_iff.1 hpb
    have hcond := Expr.phrase_tells h.1 hpc
    have hyes : yes.phrase.TellsStmt yes := Stmt.phrase_tells yes h.2.1 hpy
    have hno : no.phrase.TellsStmt no := Stmt.phrase_tells no h.2.2 hpn
    refine TellsStmt.group (by decide) ⟨hcond.1, hyes.1, hno.1, trivial⟩ ?_
    simp [Stmt.assemble, exprs, stmts, hcond.2, hyes.2, hno.2, Stmt.bare]
  | .loop cond body, h, hp => by
    obtain ⟨hpc, hpb⟩ := Bool.and_eq_true_iff.1 hp
    have hcond := Expr.phrase_tells h.1 hpc
    have hbody : body.phrase.TellsStmt body := Stmt.phrase_tells body h.2 hpb
    refine TellsStmt.group (by decide) ⟨hcond.1, hbody.1, trivial⟩ ?_
    simp [Stmt.assemble, exprs, stmts, hcond.2, hbody.2, Stmt.bare]
  | .breakLoop keyword, h, hp => by
    have hback : Token.ofWord "break" = keyword.bare := h.ofKeyword
    refine TellsStmt.group (by decide) trivial ?_
    simp [Stmt.assemble, hback, Stmt.bare]
  | .function decl, h, hp => Routine.phrase_tells decl h hp
  | .returnWith keyword value, h, hp => by
    obtain ⟨hkeyword, hvalue⟩ := h
    obtain ⟨hlegible, hread⟩ := Expr.optionPhrase_tells hvalue hp
    have hback : Token.ofWord "return" = keyword.bare := hkeyword.ofKeyword
    refine TellsStmt.group (by decide) hlegible ?_
    cases value <;> simp [Stmt.assemble, hread, hback, Stmt.bare]
  | .classDecl name none methods, h, hp => by
    obtain ⟨hname, -, hmethods⟩ := h
    have hmethods := Routine.phrases_tell methods hmethods hp
    show TellsStmt (.group (.word "class" :: .word name.lexeme :: Routine.phrases methods)) _
    refine TellsStmt.group (by decide) ⟨hname.isWord, hmethods.1⟩ ?_
    show (if _ = "<" then _ else Stmt.classDecl (Expr.ofWord name.lexeme).named none
      (Stmt.routines (stmts (Routine.phrases methods)))) = _
    rw [if_neg (Routine.second_ne methods), hname.exprOfWord, hmethods.2, Stmt.routines_map]
    rfl
  | .classDecl name (some superclass) methods, h, hp => by
    obtain ⟨hname, hsuperclass, hmethods⟩ := h
    obtain ⟨hps, hpm⟩ := Bool.and_eq_true_iff.1 hp
    have hsuperclass : superclass.phrase.Tells superclass := Expr.phrase_tells hsuperclass hps
    have hmethods := Routine.phrases_tell methods hmethods hpm
    refine TellsStmt.group (by decide) ⟨hname.isWord, (by decide : IsWord "<"), hsuperclass.1, hmethods.1⟩ ?_
    show Stmt.classDecl (Expr.ofWord name.lexeme).named (some superclass.phrase.expr)
      (Stmt.routines (stmts (Routine.phrases methods))) = _
    rw [hname.exprOfWord, hsuperclass.2, hmethods.2, Stmt.routines_map]
    rfl
  | .execute keyword path, h, hp => by
    obtain ⟨hkeyword, hpath⟩ := h
    obtain ⟨hlegible, hread⟩ := Expr.phrase_tells hpath hp
    have hback : Token.ofWord "execute" = keyword.bare := hkeyword.ofKeyword
    refine TellsStmt.group (by decide) ⟨hlegible, trivial⟩ ?_
    simp [Stmt.assemble, exprs, hread, hback, Stmt.bare]

theorem Stmt.phrases_tell : (ss : List Stmt) → Stmt.AllLegible ss → Stmt.allPlain ss = true →
    AllTellStmts (Stmt.phrases ss) ss
  | [], _, _ => ⟨trivial, rfl⟩
  | s :: rest, h, hp => by
    obtain ⟨hp, hps⟩ := Bool.and_eq_true_iff.1 hp
    have hs : s.phrase.TellsStmt s := Stmt.phrase_tells s h.1 hp
    have hrest : AllTellStmts (Stmt.phrases rest) rest := Stmt.phrases_tell rest h.2 hps
    refine ⟨⟨hs.1, hrest.1⟩, ?_⟩
    rw [Stmt.phrases, stmts, hs.2, hrest.2, Stmt.allBare]

theorem Routine.phrase_tells : (r : Routine) → r.Legible → r.plain = true → r.phrase.TellsStmt (.function r)
  | ⟨name, params, body⟩, h, hp => by
    exact .function h.1 h.2.1 (Stmt.phrases_tell body h.2.2 hp)

theorem Routine.phrases_tell : (rs : List Routine) → Routine.AllLegible rs → Routine.allPlain rs = true →
    Phrase.AllLegible (Routine.phrases rs) ∧ stmts (Routine.phrases rs) = (Routine.allBare rs).map .function
  | [], _, _ => ⟨trivial, rfl⟩
  | r :: rest, h, hp => by
    obtain ⟨hp, hps⟩ := Bool.and_eq_true_iff.1 hp
    have hr : r.phrase.TellsStmt (.function r) := Routine.phrase_tells r h.1 hp
    have hrest := Routine.phrases_tell rest h.2 hps
    refine ⟨⟨hr.1, hrest.1⟩, ?_⟩
    rw [Routine.phrases, stmts, hr.2, hrest.2, Routine.allBare, Stmt.bare, List.map_cons]

end

/-- Legible and plain statements with one listing are one statement, but for identities and lines. -/
theorem Stmt.bare_eq_of_listing_eq {s t : Stmt} (hs : s.Legible) (hsp : s.plain = true) (ht : t.Legible)
    (htp : t.plain = true) (h : s.listing = t.listing) : s.bare = t.bare := by
  obtain ⟨hslegible, hsread⟩ := s.phrase_tells hs hsp
  obtain ⟨htlegible, htread⟩ := t.phrase_tells ht htp
  have hphrase : s.phrase = t.phrase := by
    apply eq_of_text_eq hslegible htlegible
    rw [s.text_phrase, t.text_phrase, h]
  rw [← hsread, hphrase, htread]

end Lox
