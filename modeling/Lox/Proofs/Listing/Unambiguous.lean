import Lox.Proofs.Lexical.Joining
import Lox.Proofs.Listing.Reading
import Lox.Proofs.Parse.Soundness

/-!
# Listings are unambiguous

A program that was read from a text is legible: its tokens are lexemes, of the kinds that the grammar asks for. So two
statements that were read have one listing only if they are the same but for identities and lines.
-/

namespace Lox

/-! ## What is read is legible -/

theorem Token.Is.of_kind {t : Token} {kind : Kind} (h : Lexeme t.lexeme.toList t.kind) (hk : t.kind = kind) :
    t.Is kind := ⟨hk, hk ▸ h⟩

theorem Token.lexeme_of_mem_scan {source : String} {t : Token} (h : t ∈ Item.tokens (Token.scan source))
    (ht : t.kind ≠ .eof) : Lexeme t.lexeme.toList t.kind := by
  obtain ⟨parts, last, hsplits, hscan⟩ := Scan.splits_scan source
  obtain ⟨item, hitem, hok⟩ := List.mem_filterMap.1 h
  cases item with
  | error e => cases hok
  | ok u =>
    cases hok
    rw [hscan] at hitem
    rcases List.mem_append.1 hitem with hitem | hitem
    · exact hsplits.lexeme hitem
    · cases List.mem_singleton.1 hitem
      exact absurd rfl ht

namespace Grammar

def Rule.Legible : (r : Rule) → r.Tree → Prop
  | .declarations, t => Stmt.AllLegible t
  | .declaration, t | .varDecl, t | .exprStmt, t | .statement _, t => Stmt.Legible t
  | .methods, t => Routine.AllLegible t
  | .function, t => Routine.Legible t
  | .forInit, none => True
  | .forInit, some t => Stmt.Legible t
  | .optional, t => Expr.OptionLegible t
  | .arguments, t => Expr.AllLegible t
  | .expression, t | .operation _, t | .call, t | .primary, t => Expr.Legible t

theorem legible_forLoop {init : Option Stmt} {cond increment : Option Expr} {body : Stmt}
    (hi : Rule.forInit.Legible init) (hc : Expr.OptionLegible cond) (hu : Expr.OptionLegible increment)
    (hb : body.Legible) : (Parse.forLoop init cond increment body).Legible := by
  cases init <;> cases cond <;> cases increment <;>
    simp_all [Parse.forLoop, Stmt.Legible, Stmt.AllLegible, Expr.Legible, Rule.Legible, Expr.OptionLegible]

section

variable {ts : List Token}

theorem Names.legible {names : List Token} (h : Names ts names) (hts : ∀ t ∈ ts, Lexeme t.lexeme.toList t.kind) :
    ∀ p ∈ names, p.Is .identifier := by
  induction h with
  | one hk => simp_all [Token.Is]
  | more hk _ _ ih => simp_all [Token.Is]

theorem Parameters.legible {names : List Token} (h : Parameters ts names)
    (hts : ∀ t ∈ ts, Lexeme t.lexeme.toList t.kind) : ∀ p ∈ names, p.Is .identifier := by
  cases h with
  | none => simp
  | some hnames _ => exact hnames.legible hts

end

theorem legible_join {level : Parse.Level} {op : Token} {l r : Expr} (hop : Lexeme op.lexeme.toList op.kind)
    (h : level.has op.kind = true) (hl : l.Legible) (hr : r.Legible) : (level.join l op r).Legible := by
  have hmark : ∀ s, op.kind = .symbol s → s ∈ Symbol.binary → op.IsMark Symbol.binary :=
    fun s hk hs => ⟨s, hs, .of_kind hop hk⟩
  unfold Parse.Level.has at h
  split at h
  case h_1 hk => exact ⟨.inr (.of_kind hop hk), hl, hr⟩
  case h_2 hk => exact ⟨.inl (.of_kind hop hk), hl, hr⟩
  case h_3 s hk => exact ⟨hmark s hk (by revert h; cases s <;> decide), hl, hr⟩
  case h_4 s hk => exact ⟨hmark s hk (by revert h; cases s <;> decide), hl, hr⟩
  case h_5 s hk => exact ⟨hmark s hk (by revert h; cases s <;> decide), hl, hr⟩
  case h_6 s hk => exact ⟨hmark s hk (by revert h; cases s <;> decide), hl, hr⟩
  case h_7 => cases h

theorem isMark_of_isUnary {op : Token} (hop : Lexeme op.lexeme.toList op.kind) (h : Parse.isUnary op.kind = true) :
    op.IsMark [.bang, .minus] := by
  cases hk : op.kind with
  | symbol s =>
    refine ⟨s, ?_, .of_kind hop hk⟩
    rw [hk] at h
    simpa [Parse.isUnary] using h
  | _ => rw [hk] at h; cases h

/-- By induction on the derivation: what is built from lexemes is legible. -/
theorem Derives.legible {nearest : Bool} {r : Rule} {ts : List Token} {t : r.Tree}
    (h : Derives nearest r ts t) (hts : ∀ t ∈ ts, Lexeme t.lexeme.toList t.kind) : r.Legible t := by
  induction h with
  | function hname _ hparams _ _ _ _ ih =>
    simp only [List.forall_mem_cons, List.forall_mem_append] at hts
    obtain ⟨hn, -, hp, -, -, hb, -⟩ := hts
    exact ⟨.of_kind hn hname, hparams.legible hp, ih hb⟩
  | forStmt _ _ _ _ _ _ _ _ ihi ihc ihu ih =>
    simp only [List.forall_mem_cons, List.forall_mem_append] at hts
    obtain ⟨-, -, hi, hc, -, hu, -, hb⟩ := hts
    rw [forTree_eq]
    exact legible_forLoop (ihi hi) (ihc hc) (ihu hu) (ih hb)
  | assignProperty _ _ hname _ _ iho ihv =>
    simp only [List.forall_mem_cons, List.forall_mem_append] at hts
    obtain ⟨ho, -, hn, -, hv⟩ := hts
    exact ⟨.of_kind hn hname, iho ho, ihv hv⟩
  | operation _ hop _ _ ihl ihr =>
    simp only [List.forall_mem_cons, List.forall_mem_append] at hts
    obtain ⟨hhas, rfl⟩ := binary_iff.1 hop
    exact legible_join hts.2.1 hhas (ihl hts.1) (ihr hts.2.2)
  | unary hop _ ih =>
    simp only [List.forall_mem_cons] at hts
    exact ⟨isMark_of_isUnary hts.1 (unary_iff.1 hop), ih hts.2⟩
  | callNone _ _ hparen ih =>
    simp only [List.forall_mem_cons, List.forall_mem_append] at hts
    exact ⟨.of_kind hts.2.2.1 hparen, ih hts.1, trivial⟩
  | callArgs _ _ _ _ hparen ihc iha =>
    simp only [List.forall_mem_cons, List.forall_mem_append] at hts
    obtain ⟨hc, -, ha, hp, -⟩ := hts
    exact ⟨.of_kind hp hparen, ihc hc, iha ha⟩
  | property _ _ hname ih =>
    simp only [List.forall_mem_cons, List.forall_mem_append] at hts
    exact ⟨.of_kind hts.2.2.1 hname, ih hts.1⟩
  | _ =>
    simp_all [Rule.Legible, Stmt.Legible, Stmt.AllLegible, Expr.Legible, Expr.OptionLegible, Expr.AllLegible,
      Routine.AllLegible, Token.Is]

end Grammar

theorem Stmt.legible_of_mem {ss : List Stmt} (h : Stmt.AllLegible ss) : ∀ s ∈ ss, s.Legible := by
  induction ss with
  | nil => simp
  | cons s rest ih => exact List.forall_mem_cons.2 ⟨h.1, ih h.2⟩

theorem Stmt.legible_of_parse {source : String} {nextId : Nat} {program : List Stmt}
    (h : (Stmt.parse (Item.tokens (Token.scan source)) nextId).1 = .ok program) : ∀ s ∈ program, s.Legible := by
  apply Stmt.legible_of_mem
  apply (Stmt.parse_sound h).1.legible
  intro t ht
  have hscan := (List.takeWhile_prefix _).subset ht
  have hkind := List.mem_takeWhile_imp ht
  apply Token.lexeme_of_mem_scan hscan
  intro heof
  simp [Parse.isEof, heof] at hkind

/-- Two statements that were read from texts, in which there are no strings and only finite numbers, are listed alike
exactly if they are the same but for identities and lines. -/
theorem Stmt.listing_eq_iff {source source' : String} {nextId nextId' : Nat} {program program' : List Stmt}
    (h : (Stmt.parse (Item.tokens (Token.scan source)) nextId).1 = .ok program)
    (h' : (Stmt.parse (Item.tokens (Token.scan source')) nextId').1 = .ok program')
    {s s' : Stmt} (hs : s ∈ program) (hs' : s' ∈ program') (hp : s.plain = true) (hp' : s'.plain = true) :
    s.listing = s'.listing ↔ s.bare = s'.bare := by
  constructor
  · exact Stmt.bare_eq_of_listing_eq (legible_of_parse h s hs) hp (legible_of_parse h' s' hs') hp'
  · intro hbare
    rw [← s.listing_bare, hbare, s'.listing_bare]

def endlessFor : String := "for (;;) \x7b a.b = -c <= 1.5 and !d(2, this); \x7d"

/-- The same loop in other words. -/
def endlessWhile : String := "while(true)\n\x7ba . b=-c<=1.50 and!d(2.0,this);\x7d"

theorem listings_endlessLoops :
    (match (Stmt.parse (Item.tokens (Token.scan endlessFor)) 0).1,
        (Stmt.parse (Item.tokens (Token.scan endlessWhile)) 40).1 with
      | .ok [s], .ok [s'] => s.plain && s'.plain && s.listing == s'.listing
      | _, _ => false) = true := by
  decide +kernel

theorem Stmt.listing_eq_iff_endlessLoops :
    ∃ s s', (Stmt.parse (Item.tokens (Token.scan endlessFor)) 0).1 = .ok [s] ∧
      (Stmt.parse (Item.tokens (Token.scan endlessWhile)) 40).1 = .ok [s'] ∧
      s.plain = true ∧ s'.plain = true ∧ s.listing = s'.listing ∧ s.bare = s'.bare := by
  have hlistings := listings_endlessLoops
  split at hlistings
  case h_1 s s' h h' =>
    simp only [Bool.and_eq_true, beq_iff_eq] at hlistings
    obtain ⟨⟨hp, hp'⟩, hsame⟩ := hlistings
    have hiff := Stmt.listing_eq_iff h h' List.mem_cons_self List.mem_cons_self hp hp'
    exact ⟨s, s', h, h', hp, hp', hsame, hiff.1 hsame⟩
  case h_2 => cases hlistings

end Lox
