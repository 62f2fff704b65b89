import Lox.Proofs.Lexical.Lexemes
import Lox.Proofs.Listing.Phrases

/-!
# The phrases of trees

The listing of a tree is the text of a phrase. It says nothing of identities and lines: a tree and its `bare` form
are listed alike. A tree is `plain` if there are no strings in it, which are listed without quotes, and `Legible` if
its tokens are of the kinds that the grammar asks for.
-/

namespace Lox

/-! ## Phrases -/

mutual

def Expr.phrase : Expr → Phrase
  | .literal v => .word v.listing
  | .group e => .group [.word "group", e.phrase]
  | .unary op e => .group [.word op.lexeme, e.phrase]
  | .binary l op r => .group [.word op.lexeme, l.phrase, r.phrase]
  | .logical l op r => .group [.word op.lexeme, l.phrase, r.phrase]
  | .var _ name => .word name.lexeme
  | .assign _ name e => .group [.word "=", .word name.lexeme, e.phrase]
  | .call callee _ args => .group (.word "call" :: callee.phrase :: Expr.phrases args)
  | .get object name => .group [.word ".", object.phrase, .word name.lexeme]
  | .set object name e =>
    .group [.word "=", .group [.word ".", object.phrase, .word name.lexeme], e.phrase]
  | .thisRef _ _ => .word "this"
  | .superRef _ _ method => .group [.word "super", .word method.lexeme]

def Expr.phrases : List Expr → List Phrase
  | [] => []
  | e :: rest => e.phrase :: Expr.phrases rest

end

def Expr.optionPhrase : Option Expr → List Phrase
  | none => []
  | some e => [e.phrase]

/-- The names in brackets. -/
def Token.phrases (params : List Token) : List Phrase := params.map fun p => .word p.lexeme

mutual

def Stmt.phrase : Stmt → Phrase
  | .expr e => .group [.word ";", e.phrase]
  | .print e => .group [.word "print", e.phrase]
  | .varDecl name init => .group (.word "var" :: .word name.lexeme :: Expr.optionPhrase init)
  | .block body => .group (.word "block" :: Stmt.phrases body)
  | .branch cond yes none => .group [.word "if", cond.phrase, yes.phrase]
  | .branch cond yes (some no) => .group [.word "if", cond.phrase, yes.phrase, no.phrase]
  | .loop cond body => .group [.word "while", cond.phrase, body.phrase]
  | .breakLoop _ => .group [.word "break"]
  | .function decl => decl.phrase
  | .returnWith _ value => .group (.word "return" :: Expr.optionPhrase value)
  | .classDecl name superclass methods =>
    .group (.word "class" :: .word name.lexeme ::
      (Expr.optionPhrase superclass).flatMap ([.word "<", ·]) ++ Routine.phrases methods)
  | .execute _ path => .group [.word "execute", path.phrase]

def Stmt.phrases : List Stmt → List Phrase
  | [] => []
  | s :: rest => s.phrase :: Stmt.phrases rest

def Routine.phrase : Routine → Phrase
  | ⟨name, params, body⟩ =>
    .group (.word "fun" :: .word name.lexeme :: .group (Token.phrases params) :: Stmt.phrases body)

def Routine.phrases : List Routine → List Phrase
  | [] => []
  | r :: rest => r.phrase :: Routine.phrases rest

end

open Phrase

theorem Phrase.texts_params (params : List Token) : texts (Token.phrases params) = params.map (·.lexeme) := by
  induction params with
  | nil => rfl
  | cons p rest ih => exact congrArg (p.lexeme :: ·) ih

mutual

theorem Expr.text_phrase : (e : Expr) → e.phrase.text = e.listing
  | .literal v => rfl
  | .group e => by simp only [phrase, listing, text, texts, text_phrase e]
  | .unary op e => by simp only [phrase, listing, text, texts, text_phrase e]
  | .binary l op r => by simp only [phrase, listing, text, texts, text_phrase l, text_phrase r]
  | .logical l op r => by simp only [phrase, listing, text, texts, text_phrase l, text_phrase r]
  | .var _ _ => rfl
  | .assign _ _ e => by simp only [phrase, listing, text, texts, text_phrase e]
  | .call callee _ args => by simp only [phrase, listing, text, texts, text_phrase callee, texts_phrases args]
  | .get object _ => by simp only [phrase, listing, text, texts, text_phrase object]
  | .set object _ e => by simp only [phrase, listing, text, texts, text_phrase object, text_phrase e]
  | .thisRef _ _ => rfl
  | .superRef _ _ _ => rfl

theorem Expr.texts_phrases : (es : List Expr) → texts (Expr.phrases es) = Expr.listings es
  | [] => rfl
  | e :: rest => by simp only [phrases, listings, texts, text_phrase e, texts_phrases rest]

end

theorem Expr.texts_optionPhrase (e : Option Expr) : texts (Expr.optionPhrase e) = Expr.optionListing e := by
  cases e with
  | none => rfl
  | some e => simp only [optionPhrase, optionListing, texts, e.text_phrase]

mutual

theorem Stmt.text_phrase : (s : Stmt) → s.phrase.text = s.listing
  | .expr e => by simp only [Stmt.phrase, Stmt.listing, text, texts, e.text_phrase]
  | .print e => by simp only [Stmt.phrase, Stmt.listing, text, texts, e.text_phrase]
  | .varDecl _ init => by simp only [Stmt.phrase, Stmt.listing, text, texts, Expr.texts_optionPhrase]
  | .block body => by simp only [Stmt.phrase, Stmt.listing, text, texts, Stmt.texts_phrases body]
  | .branch cond yes none => by
    simp only [Stmt.phrase, Stmt.listing, text, texts, cond.text_phrase, Stmt.text_phrase yes]
  | .branch cond yes (some no) => by
    simp only [Stmt.phrase, Stmt.listing, text, texts, cond.text_phrase, Stmt.text_phrase yes, Stmt.text_phrase no]
  | .loop cond body => by simp only [Stmt.phrase, Stmt.listing, text, texts, cond.text_phrase, Stmt.text_phrase body]
  | .breakLoop _ => rfl
  | .function decl => decl.text_phrase
  | .returnWith _ value => by simp only [Stmt.phrase, Stmt.listing, text, texts, Expr.texts_optionPhrase]
  | .classDecl _ none methods => by
    simp only [Stmt.phrase, Stmt.listing, text, texts, Expr.optionPhrase, Expr.optionListing, List.flatMap_nil,
      List.nil_append, Routine.texts_phrases methods, List.cons_append]
  | .classDecl _ (some e) methods => by
    simp only [Stmt.phrase, Stmt.listing, text, texts, Expr.optionPhrase, Expr.optionListing, List.flatMap_cons,
      List.flatMap_nil, List.append_nil, List.cons_append, List.nil_append, e.text_phrase,
      Routine.texts_phrases methods]
  | .execute _ path => by simp only [Stmt.phrase, Stmt.listing, text, texts, path.text_phrase]

theorem Stmt.texts_phrases : (ss : List Stmt) → texts (Stmt.phrases ss) = Stmt.listings ss
  | [] => rfl
  | s :: rest => by simp only [Stmt.phrases, Stmt.listings, texts, Stmt.text_phrase s, Stmt.texts_phrases rest]

theorem Routine.text_phrase : (r : Routine) → r.phrase.text = r.listing
  | ⟨_, params, body⟩ => by
    simp only [Routine.phrase, Routine.listing, text, texts, texts_params, Stmt.texts_phrases body]

theorem Routine.texts_phrases : (rs : List Routine) → texts (Routine.phrases rs) = Routine.listings rs
  | [] => rfl
  | r :: rest => by
    simp only [Routine.phrases, Routine.listings, texts, Routine.text_phrase r, Routine.texts_phrases rest]

end

/-! ## Trees without identities and lines -/

def Token.bare (t : Token) : Token := { t with line := 0 }

mutual

/-- The tree with every identity and every line forgotten. -/
def Expr.bare : Expr → Expr
  | .literal v => .literal v
  | .group e => .group e.bare
  | .unary op e => .unary op.bare e.bare
  | .binary l op r => .binary l.bare op.bare r.bare
  | .logical l op r => .logical l.bare op.bare r.bare
  | .var _ name => .var 0 name.bare
  | .assign _ name e => .assign 0 name.bare e.bare
  | .call callee paren args => .call callee.bare paren.bare (Expr.allBare args)
  | .get object name => .get object.bare name.bare
  | .set object name e => .set object.bare name.bare e.bare
  | .thisRef _ keyword => .thisRef 0 keyword.bare
  | .superRef _ keyword method => .superRef 0 keyword.bare method.bare

def Expr.allBare : List Expr → List Expr
  | [] => []
  | e :: rest => e.bare :: Expr.allBare rest

end

mutual

def Stmt.bare : Stmt → Stmt
  | .expr e => .expr e.bare
  | .print e => .print e.bare
  | .varDecl name init => .varDecl name.bare (init.map Expr.bare)
  | .block body => .block (Stmt.allBare body)
  | .branch cond yes none => .branch cond.bare yes.bare none
  | .branch cond yes (some no) => .branch cond.bare yes.bare (some no.bare)
  | .loop cond body => .loop cond.bare body.bare
  | .breakLoop keyword => .breakLoop keyword.bare
  | .function decl => .function decl.bare
  | .returnWith keyword value => .returnWith keyword.bare (value.map Expr.bare)
  | .classDecl name superclass methods =>
    .classDecl name.bare (superclass.map Expr.bare) (Routine.allBare methods)
  | .execute keyword path => .execute keyword.bare path.bare

def Stmt.allBare : List Stmt → List Stmt
  | [] => []
  | s :: rest => s.bare :: Stmt.allBare rest

def Routine.bare : Routine → Routine
  | ⟨name, params, body⟩ => ⟨name.bare, params.map Token.bare, Stmt.allBare body⟩

def Routine.allBare : List Routine → List Routine
  | [] => []
  | r :: rest => r.bare :: Routine.allBare rest

end

mutual

theorem Expr.listing_bare : (e : Expr) → e.bare.listing = e.listing
  | .literal _ => rfl
  | .group e => by simp only [Expr.bare, Expr.listing, Expr.listing_bare e]
  | .unary op e => by simp only [Expr.bare, Expr.listing, Token.bare, Expr.listing_bare e]
  | .binary l op r => by
    simp only [Expr.bare, Expr.listing, Token.bare, Expr.listing_bare l, Expr.listing_bare r]
  | .logical l op r => by
    simp only [Expr.bare, Expr.listing, Token.bare, Expr.listing_bare l, Expr.listing_bare r]
  | .var _ _ => rfl
  | .assign _ _ e => by simp only [Expr.bare, Expr.listing, Token.bare, Expr.listing_bare e]
  | .call callee _ args => by
    simp only [Expr.bare, Expr.listing, Expr.listing_bare callee, Expr.listings_allBare args]
  | .get object _ => by simp only [Expr.bare, Expr.listing, Token.bare, Expr.listing_bare object]
  | .set object _ e => by
    simp only [Expr.bare, Expr.listing, Token.bare, Expr.listing_bare object, Expr.listing_bare e]
  | .thisRef _ _ => rfl
  | .superRef _ _ _ => rfl

theorem Expr.listings_allBare : (es : List Expr) → Expr.listings (Expr.allBare es) = Expr.listings es
  | [] => rfl
  | e :: rest => by
    simp only [Expr.allBare, Expr.listings, Expr.listing_bare e, Expr.listings_allBare rest]

end

theorem Expr.optionListing_bare (e : Option Expr) :
    Expr.optionListing (e.map Expr.bare) = Expr.optionListing e := by
  cases e with
  | none => rfl
  | some e => exact congrArg (fun w => [w]) e.listing_bare

mutual

theorem Stmt.listing_bare : (s : Stmt) → s.bare.listing = s.listing
  | .expr e => by simp only [Stmt.bare, Stmt.listing, e.listing_bare]
  | .print e => by simp only [Stmt.bare, Stmt.listing, e.listing_bare]
  | .varDecl _ init => by simp only [Stmt.bare, Stmt.listing, Token.bare, Expr.optionListing_bare]
  | .block body => by simp only [Stmt.bare, Stmt.listing, Stmt.listings_allBare body]
  | .branch cond yes none => by
    simp only [Stmt.bare, Stmt.listing, cond.listing_bare, Stmt.listing_bare yes]
  | .branch cond yes (some no) => by
    simp only [Stmt.bare, Stmt.listing, cond.listing_bare, Stmt.listing_bare yes, Stmt.listing_bare no]
  | .loop cond body => by simp only [Stmt.bare, Stmt.listing, cond.listing_bare, Stmt.listing_bare body]
  | .breakLoop _ => rfl
  | .function decl => decl.listing_bare
  | .returnWith _ value => by simp only [Stmt.bare, Stmt.listing, Expr.optionListing_bare]
  | .classDecl _ superclass methods => by
    simp only [Stmt.bare, Stmt.listing, Token.bare, Expr.optionListing_bare, Routine.listings_allBare methods]
  | .execute _ path => by simp only [Stmt.bare, Stmt.listing, path.listing_bare]

theorem Stmt.listings_allBare : (ss : List Stmt) → Stmt.listings (Stmt.allBare ss) = Stmt.listings ss
  | [] => rfl
  | s :: rest => by
    simp only [Stmt.allBare, Stmt.listings, Stmt.listing_bare s, Stmt.listings_allBare rest]

theorem Routine.listing_bare : (r : Routine) → r.bare.listing = r.listing
  | ⟨name, params, body⟩ => by
    have hparams : (params.map Token.bare).map (·.lexeme) = params.map (·.lexeme) := by rw [List.map_map]; rfl
    rw [Routine.bare, Routine.listing, Routine.listing, hparams, Stmt.listings_allBare body]
    rfl

theorem Routine.listings_allBare : (rs : List Routine) → Routine.listings (Routine.allBare rs) = Routine.listings rs
  | [] => rfl
  | r :: rest => by
    simp only [Routine.allBare, Routine.listings, Routine.listing_bare r, Routine.listings_allBare rest]

end

/-! ## Plain trees -/

def Literal.plain : Literal → Bool
  | .nil => true
  | .bool _ => true
  | .number x => x.isFinite
  | .string _ => false

mutual

/-- There are no strings in the tree, and no numbers that are not finite. -/
def Expr.plain : Expr → Bool
  | .literal v => v.plain
  | .group e => e.plain
  | .unary _ e => e.plain
  | .binary l _ r => l.plain && r.plain
  | .logical l _ r => l.plain && r.plain
  | .var _ _ => true
  | .assign _ _ e => e.plain
  | .call callee _ args => callee.plain && Expr.allPlain args
  | .get object _ => object.plain
  | .set object _ e => object.plain && e.plain
  | .thisRef _ _ => true
  | .superRef _ _ _ => true

def Expr.allPlain : List Expr → Bool
  | [] => true
  | e :: rest => e.plain && Expr.allPlain rest

end

def Expr.optionPlain : Option Expr → Bool
  | none => true
  | some e => e.plain

mutual

def Stmt.plain : Stmt → Bool
  | .expr e => e.plain
  | .print e => e.plain
  | .varDecl _ init => Expr.optionPlain init
  | .block body => Stmt.allPlain body
  | .branch cond yes none => cond.plain && yes.plain
  | .branch cond yes (some no) => cond.plain && (yes.plain && no.plain)
  | .loop cond body => cond.plain && body.plain
  | .breakLoop _ => true
  | .function decl => decl.plain
  | .returnWith _ value => Expr.optionPlain value
  | .classDecl _ superclass methods => Expr.optionPlain superclass && Routine.allPlain methods
  | .execute _ path => path.plain

def Stmt.allPlain : List Stmt → Bool
  | [] => true
  | s :: rest => s.plain && Stmt.allPlain rest

def Routine.plain : Routine → Bool
  | ⟨_, _, body⟩ => Stmt.allPlain body

def Routine.allPlain : List Routine → Bool
  | [] => true
  | r :: rest => r.plain && Routine.allPlain rest

end

/-! ## Legible trees -/

/-- The token was read as this kind. -/
def Token.Is (t : Token) (kind : Kind) : Prop := t.kind = kind ∧ Lexeme t.lexeme.toList kind

/-- The token is one of these marks. -/
def Token.IsMark (t : Token) (marks : List Symbol) : Prop := ∃ s ∈ marks, t.Is (.symbol s)

def Symbol.binary : List Symbol :=
  [.bangEqual, .equalEqual, .greater, .greaterEqual, .less, .lessEqual, .minus, .plus, .star, .slash]

mutual

/-- The tokens are of the kinds that the construct asks for. -/
def Expr.Legible : Expr → Prop
  | .literal _ => True
  | .group e => e.Legible
  | .unary op e => op.IsMark [.bang, .minus] ∧ e.Legible
  | .binary l op r => op.IsMark Symbol.binary ∧ l.Legible ∧ r.Legible
  | .logical l op r => (op.Is (.keyword .andKw) ∨ op.Is (.keyword .orKw)) ∧ l.Legible ∧ r.Legible
  | .var _ name => name.Is .identifier
  | .assign _ name e => name.Is .identifier ∧ e.Legible
  | .call callee paren args => paren.Is (.symbol .rightParen) ∧ callee.Legible ∧ Expr.AllLegible args
  | .get object name => name.Is .identifier ∧ object.Legible
  | .set object name e => name.Is .identifier ∧ object.Legible ∧ e.Legible
  | .thisRef _ keyword => keyword.Is (.keyword .thisKw)
  | .superRef _ keyword method => keyword.Is (.keyword .superKw) ∧ method.Is .identifier

def Expr.AllLegible : List Expr → Prop
  | [] => True
  | e :: rest => e.Legible ∧ Expr.AllLegible rest

end

def Expr.OptionLegible : Option Expr → Prop
  | none => True
  | some e => e.Legible

mutual

def Stmt.Legible : Stmt → Prop
  | .expr e => e.Legible
  | .print e => e.Legible
  | .varDecl name init => name.Is .identifier ∧ Expr.OptionLegible init
  | .block body => Stmt.AllLegible body
  | .branch cond yes none => cond.Legible ∧ yes.Legible
  | .branch cond yes (some no) => cond.Legible ∧ yes.Legible ∧ no.Legible
  | .loop cond body => cond.Legible ∧ body.Legible
  | .breakLoop keyword => keyword.Is (.keyword .breakKw)
  | .function decl => decl.Legible
  | .returnWith keyword value => keyword.Is (.keyword .returnKw) ∧ Expr.OptionLegible value
  | .classDecl name superclass methods =>
    name.Is .identifier ∧ Expr.OptionLegible superclass ∧ Routine.AllLegible methods
  | .execute keyword path => keyword.Is (.keyword .executeKw) ∧ path.Legible

def Stmt.AllLegible : List Stmt → Prop
  | [] => True
  | s :: rest => s.Legible ∧ Stmt.AllLegible rest

def Routine.Legible : Routine → Prop
  | ⟨name, params, body⟩ => name.Is .identifier ∧ (∀ p ∈ params, p.Is .identifier) ∧ Stmt.AllLegible body

def Routine.AllLegible : List Routine → Prop
  | [] => True
  | r :: rest => r.Legible ∧ Routine.AllLegible rest

end

end Lox
