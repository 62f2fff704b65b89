import Lox.Program.Read
import Lox.Proofs.Parse.Soundness

/-!
# Programs as they are read

A tree can be put together that no text spells. In one that was read, `this` and `super` are spelt so,
a branch and the body of a loop declare nothing, and a superclass is a name.
-/

namespace Lox

/-- A keyword is spelt as it is written. -/
def Token.Spelt (t : Token) : Prop := ∀ k, t.kind = .keyword k → t.lexeme = k.word

mutual

def Expr.WellFormed : Expr → Prop
  | .literal _ => True
  | .group e => e.WellFormed
  | .unary _ e => e.WellFormed
  | .binary l _ r => l.WellFormed ∧ r.WellFormed
  | .logical l _ r => l.WellFormed ∧ r.WellFormed
  | .var _ _ => True
  | .assign _ _ e => e.WellFormed
  | .call callee _ args => callee.WellFormed ∧ Expr.AllWellFormed args
  | .get object _ => object.WellFormed
  | .set object _ e => object.WellFormed ∧ e.WellFormed
  | .thisRef _ keyword => keyword.lexeme = "this"
  | .superRef _ keyword _ => keyword.lexeme = "super"

def Expr.AllWellFormed : List Expr → Prop
  | [] => True
  | e :: rest => e.WellFormed ∧ Expr.AllWellFormed rest

end

def Expr.OptionWellFormed : Option Expr → Prop
  | none => True
  | some e => e.WellFormed

/-- A superclass is named. -/
def Expr.Named : Option Expr → Prop
  | none => True
  | some e => ∃ id name, e = .var id name

def Stmt.isDeclaration : Stmt → Bool
  | .varDecl _ _ | .function _ | .classDecl _ _ _ => true
  | _ => false

mutual

def Stmt.WellFormed : Stmt → Prop
  | .expr e => e.WellFormed
  | .print e => e.WellFormed
  | .varDecl _ init => Expr.OptionWellFormed init
  | .block body => Stmt.AllWellFormed body
  | .branch cond yes none => cond.WellFormed ∧ yes.WellFormed ∧ yes.isDeclaration = false
  | .branch cond yes (some no) =>
    cond.WellFormed ∧ (yes.WellFormed ∧ yes.isDeclaration = false) ∧
      no.WellFormed ∧ no.isDeclaration = false
  | .loop cond body => cond.WellFormed ∧ body.WellFormed ∧ body.isDeclaration = false
  | .breakLoop _ => True
  | .function decl => decl.WellFormed
  | .returnWith _ value => Expr.OptionWellFormed value
  | .classDecl _ superclass methods => Expr.Named superclass ∧ Routine.AllWellFormed methods
  | .execute _ path => path.WellFormed

def Stmt.AllWellFormed : List Stmt → Prop
  | [] => True
  | s :: rest => s.WellFormed ∧ Stmt.AllWellFormed rest

def Routine.WellFormed : Routine → Prop
  | ⟨_, _, body⟩ => Stmt.AllWellFormed body

def Routine.AllWellFormed : List Routine → Prop
  | [] => True
  | r :: rest => r.WellFormed ∧ Routine.AllWellFormed rest

end

namespace Grammar

def Rule.WellFormed : (r : Rule) → r.Tree → Prop
  | .declarations, t => Stmt.AllWellFormed t
  | .declaration, t | .varDecl, t => Stmt.WellFormed t
  | .exprStmt, t | .statement _, t => Stmt.WellFormed t ∧ Stmt.isDeclaration t = false
  | .methods, t => Routine.AllWellFormed t
  | .function, t => Routine.WellFormed t
  | .forInit, none => True
  | .forInit, some t => Stmt.WellFormed t
  | .optional, t => Expr.OptionWellFormed t
  | .arguments, t => Expr.AllWellFormed t
  | .expression, t | .operation _, t | .call, t | .primary, t => Expr.WellFormed t

/-- The loop that stands for a `for` statement declares nothing. -/
theorem wellFormed_forLoop {init : Option Stmt} {cond increment : Option Expr} {body : Stmt}
    (hi : Rule.forInit.WellFormed init) (hc : Expr.OptionWellFormed cond)
    (hu : Expr.OptionWellFormed increment) (hb : body.WellFormed ∧ body.isDeclaration = false) :
    (Parse.forLoop init cond increment body).WellFormed ∧
      (Parse.forLoop init cond increment body).isDeclaration = false := by
  cases init <;> cases cond <;> cases increment <;>
    simp_all [Parse.forLoop, Stmt.WellFormed, Stmt.AllWellFormed, Stmt.isDeclaration,
      Expr.WellFormed, Rule.WellFormed, Expr.OptionWellFormed]

theorem Derives.wellFormed {nearest : Bool} {r : Rule} {ts : List Token} {t : r.Tree}
    (h : Derives nearest r ts t) (hts : ∀ t ∈ ts, t.Spelt) : r.WellFormed t := by
  induction h with
  | thisRef id hk => exact hts _ (by simp) _ hk
  | superRef id hk _ _ => exact hts _ (by simp) _ hk
  | forStmt _ _ _ _ _ _ _ _ ihi ihc ihu ih =>
    simp only [List.forall_mem_cons, List.forall_mem_append] at hts
    obtain ⟨-, -, hi, hc, -, hu, -, hb⟩ := hts
    rw [forTree_eq]
    exact wellFormed_forLoop (ihi hi) (ihc hc) (ihu hu) (ih hb)
  | operation _ hop _ _ ihl ihr =>
    simp only [List.forall_mem_cons, List.forall_mem_append] at hts
    rcases hop.tree_eq with rfl | rfl <;> exact ⟨ihl hts.1, ihr hts.2.2⟩
  | _ =>
    simp_all [Rule.WellFormed, Stmt.WellFormed, Stmt.AllWellFormed, Stmt.isDeclaration,
      Expr.WellFormed, Expr.OptionWellFormed, Expr.AllWellFormed, Routine.WellFormed,
      Routine.AllWellFormed, Expr.Named]

end Grammar

/-! ## Texts -/

namespace Scan

theorem wordKind_spelt {text : List Char} {k : Keyword} (h : wordKind text = .keyword k) :
    String.ofList text = k.word := by
  unfold wordKind at h
  split at h
  case h_1 j hj =>
    cases h
    unfold Keyword.ofWord? at hj
    have hw := List.find?_some hj
    exact (beq_iff_eq.1 hw).symm
  case h_2 => cases h

end Scan

theorem Item.spelt_of_mem_tokens {source : String} {t : Token}
    (h : t ∈ Item.tokens (Token.scan source)) : t.Spelt := by
  intro k hk
  rcases Item.lexed_of_mem_tokens h with hl | ⟨last, rfl⟩
  · cases hl with
    | word text line => exact Scan.wordKind_spelt hk
    | other hkeyword _ _ => exact absurd hk (hkeyword k)
  · cases hk

/-- A program that is read is well formed, and its identities are new. -/
theorem Stmt.read_sound {source : String} {nextId nextId' : Nat} {program : List Stmt}
    (h : Stmt.read source nextId = (.ok program, nextId')) :
    Stmt.AllWellFormed program ∧ Fresh nextId nextId' (Stmt.nodesAll program) := by
  unfold Stmt.read at h
  simp only at h
  split at h
  case h_1 => cases h
  case h_2 program' next hp =>
    split at h
    case isFalse => cases h
    case isTrue =>
      cases h
      obtain ⟨hd, hf⟩ := Stmt.parse_sound (congrArg Prod.fst hp)
      rw [hp] at hf
      exact ⟨hd.wellFormed fun t ht =>
        Item.spelt_of_mem_tokens ((List.takeWhile_prefix _).subset ht), hf⟩

/-- Identities are handed out in order. -/
theorem Stmt.read_nextId (source : String) (nextId : Nat) : nextId ≤ (Stmt.read source nextId).2 := by
  have h := Stmt.parse_nextId (Item.tokens (Token.scan source)) nextId
  unfold Stmt.read
  simp only
  split <;> simpa [*] using h

end Lox
