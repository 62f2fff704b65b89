import Lox.Proofs.Effects
import Lox.Proofs.WellFormed

/-!
# Operators and names as they are read

In a program that was read, every operator is one that the machine knows, and no name that the
program declares or mentions is `this` or `super`, which are words of the language.
-/

namespace Lox
open Parse

/-- Not one of the names that only the machine binds. -/
def Token.Free (t : Token) : Prop := t.lexeme ≠ "this" ∧ t.lexeme ≠ "super"

/-- The operators between two values that are both needed. -/
def Kind.isBinary : Kind → Bool
  | .symbol s => [Symbol.plus, .minus, .star, .slash, .greater, .greaterEqual, .less, .lessEqual,
      .equalEqual, .bangEqual].contains s
  | _ => false

mutual

def Expr.Regular : Expr → Prop
  | .literal _ => True
  | .group e => e.Regular
  | .unary op e => isUnary op.kind = true ∧ e.Regular
  | .binary l op r => op.kind.isBinary = true ∧ l.Regular ∧ r.Regular
  | .logical l _ r => l.Regular ∧ r.Regular
  | .var _ name => name.Free
  | .assign _ name e => name.Free ∧ e.Regular
  | .call callee _ args => callee.Regular ∧ Expr.AllRegular args
  | .get object _ => object.Regular
  | .set object _ e => object.Regular ∧ e.Regular
  | .thisRef _ _ => True
  | .superRef _ _ _ => True

def Expr.AllRegular : List Expr → Prop
  | [] => True
  | e :: rest => e.Regular ∧ Expr.AllRegular rest

end

def Expr.OptionRegular : Option Expr → Prop
  | none => True
  | some e => e.Regular

mutual

def Stmt.Regular : Stmt → Prop
  | .expr e => e.Regular
  | .print e => e.Regular
  | .varDecl name init => name.Free ∧ Expr.OptionRegular init
  | .block body => Stmt.AllRegular body
  | .branch cond yes none => cond.Regular ∧ yes.Regular
  | .branch cond yes (some no) => cond.Regular ∧ yes.Regular ∧ no.Regular
  | .loop cond body => cond.Regular ∧ body.Regular
  | .breakLoop _ => True
  | .function decl => decl.Regular
  | .returnWith _ value => Expr.OptionRegular value
  | .classDecl name superclass methods =>
    name.Free ∧ Expr.OptionRegular superclass ∧ Routine.AllRegular methods
  | .execute _ path => path.Regular

def Stmt.AllRegular : List Stmt → Prop
  | [] => True
  | s :: rest => s.Regular ∧ Stmt.AllRegular rest

def Routine.Regular : Routine → Prop
  | ⟨name, params, body⟩ => name.Free ∧ (∀ p ∈ params, p.Free) ∧ Stmt.AllRegular body

def Routine.AllRegular : List Routine → Prop
  | [] => True
  | r :: rest => r.Regular ∧ Routine.AllRegular rest

end

theorem Routine.regular_iff {r : Routine} :
    r.Regular ↔ r.name.Free ∧ (∀ p ∈ r.params, p.Free) ∧ Stmt.AllRegular r.body := by
  cases r
  exact Iff.rfl

theorem Routine.regular_of_mem {methods : List Routine} (h : Routine.AllRegular methods)
    {r : Routine} (hr : r ∈ methods) : r.Regular := by
  induction methods with
  | nil => cases hr
  | cons r' rest ih =>
    rcases List.mem_cons.1 hr with rfl | hr
    · exact h.1
    · exact ih h.2 hr

namespace Grammar

def Rule.Regular : (r : Rule) → r.Tree → Prop
  | .declarations, t => Stmt.AllRegular t
  | .declaration, t | .varDecl, t | .exprStmt, t | .statement _, t => Stmt.Regular t
  | .methods, t => Routine.AllRegular t
  | .function, t => Routine.Regular t
  | .forInit, none => True
  | .forInit, some t => Stmt.Regular t
  | .optional, t => Expr.OptionRegular t
  | .arguments, t => Expr.AllRegular t
  | .expression, t | .operation _, t | .call, t | .primary, t => Expr.Regular t

theorem regular_forLoop {init : Option Stmt} {cond increment : Option Expr} {body : Stmt}
    (hi : Rule.forInit.Regular init) (hc : Expr.OptionRegular cond)
    (hu : Expr.OptionRegular increment) (hb : body.Regular) :
    (forLoop init cond increment body).Regular := by
  cases init <;> cases cond <;> cases increment <;>
    simp_all [forLoop, Stmt.Regular, Stmt.AllRegular, Expr.Regular, Rule.Regular, Expr.OptionRegular]

theorem regular_join {level : Level} {op : Token} {left right : Expr} (h : level.has op.kind = true)
    (hl : left.Regular) (hr : right.Regular) : (level.join left op right).Regular := by
  have hop : level = .or ∨ level = .and ∨ op.kind.isBinary = true := by
    cases hk : op.kind with
    | symbol s => cases level <;> cases s <;> simp_all [Level.has, Kind.isBinary]
    | keyword k => cases level <;> simp_all [Level.has]
    | _ => cases level <;> simp_all [Level.has]
  cases level with
  | or => exact ⟨hl, hr⟩
  | and => exact ⟨hl, hr⟩
  | _ =>
    refine ⟨?_, hl, hr⟩
    simpa using hop

theorem Names.free {ts names : List Token} (h : Names ts names)
    (hts : ∀ t ∈ ts, t.kind = .identifier → t.Free) : ∀ t ∈ names, t.Free := by
  induction h with
  | one hk =>
    simp only [List.forall_mem_singleton] at hts ⊢
    exact hts hk
  | more hk _ _ ih =>
    simp only [List.forall_mem_cons] at hts ⊢
    exact ⟨hts.1 hk, ih hts.2.2⟩

theorem Parameters.free {ts names : List Token} (h : Parameters ts names)
    (hts : ∀ t ∈ ts, t.kind = .identifier → t.Free) : ∀ t ∈ names, t.Free := by
  cases h with
  | none => exact List.forall_mem_nil _
  | some h _ => exact h.free hts

theorem Derives.regular {nearest : Bool} {r : Rule} {ts : List Token} {t : r.Tree}
    (h : Derives nearest r ts t) (hts : ∀ t ∈ ts, t.kind = .identifier → t.Free) : r.Regular t := by
  induction h with
  | function hname _ hparams _ _ _ _ ih =>
    simp only [List.forall_mem_cons, List.forall_mem_append] at hts
    obtain ⟨hn, -, hp, -, -, hb, -⟩ := hts
    exact ⟨hn hname, hparams.free hp, ih hb⟩
  | forStmt _ _ _ _ _ _ _ _ ihi ihc ihu ih =>
    simp only [List.forall_mem_cons, List.forall_mem_append] at hts
    obtain ⟨-, -, hi, hc, -, hu, -, hb⟩ := hts
    rw [forTree_eq]
    exact regular_forLoop (ihi hi) (ihc hc) (ihu hu) (ih hb)
  | operation _ hop _ _ ihl ihr =>
    simp only [List.forall_mem_cons, List.forall_mem_append] at hts
    obtain ⟨hhas, rfl⟩ := binary_iff.1 hop
    exact regular_join hhas (ihl hts.1) (ihr hts.2.2)
  | unary hop _ ih => exact ⟨unary_iff.1 hop, ih (List.forall_mem_cons.1 hts).2⟩
  | _ =>
    simp_all [Rule.Regular, Stmt.Regular, Stmt.AllRegular, Expr.Regular, Expr.OptionRegular,
      Expr.AllRegular, Routine.AllRegular]

end Grammar

/-! ## Texts -/

namespace Scan

theorem free_of_wordKind {text : List Char} (h : wordKind text = .identifier) (line : Nat) :
    (⟨.identifier, String.ofList text, line⟩ : Token).Free := by
  unfold wordKind at h
  split at h
  case h_1 => cases h
  case h_2 hnone =>
    have hall : ∀ k : Keyword, k.word ≠ String.ofList text := by
      intro k hk
      have hf := List.find?_eq_none.1 hnone k (by cases k <;> decide)
      exact hf (beq_iff_eq.2 hk)
    exact ⟨fun h => hall .thisKw h.symm, fun h => hall .superKw h.symm⟩

end Scan

theorem Item.free_of_mem_tokens {source : String} {t : Token}
    (h : t ∈ Item.tokens (Token.scan source)) (hk : t.kind = .identifier) : t.Free := by
  rcases Item.lexed_of_mem_tokens h with hl | ⟨last, rfl⟩
  · cases hl with
    | word text line => exact Scan.free_of_wordKind hk line
    | other _ hname _ => exact absurd hk hname
  · cases hk

theorem Stmt.read_regular {source : String} {nextId nextId' : Nat} {program : List Stmt}
    (h : Stmt.read source nextId = (.ok program, nextId')) : Stmt.AllRegular program := by
  unfold Stmt.read at h
  simp only at h
  split at h
  case h_1 => cases h
  case h_2 program' next hp =>
    split at h
    case isFalse => cases h
    case isTrue =>
      cases h
      obtain ⟨hd, -⟩ := Stmt.parse_sound (congrArg Prod.fst hp)
      exact hd.regular fun t ht => Item.free_of_mem_tokens ((List.takeWhile_prefix _).subset ht)

/-! ## What operators can fail with -/

namespace Eval

/-- The computation gives a plain value at once, or it fails with one of these faults. -/
inductive Settles (op : Token) (faults : List RuntimeFault) : Eval Value → Prop
  | value {v : Value} : v.isPlain = true → Settles op faults (pure v)
  | fault {fault : RuntimeFault} : fault ∈ faults → Settles op faults (fail op fault)

theorem unaryOp_settles {op : Token} (hop : isUnary op.kind = true) (v : Value) :
    Settles op [.operandNotNumber] (unaryOp op v) := by
  unfold unaryOp
  split
  · split
    · exact .value rfl
    · exact .fault List.mem_cons_self
  · exact .value rfl
  case h_3 hminus hbang =>
    exfalso
    cases hk : op.kind with
    | symbol s => cases s <;> simp_all [isUnary]
    | _ => simp_all [isUnary]

theorem numeric_settles (op : Token) (v w : Value) {f : Float → Float → Value}
    (hf : ∀ x y, (f x y).isPlain = true) :
    Settles op [.operandsNotNumbers, .operandsNotAddable] (numeric op v w f) := by
  unfold numeric
  split
  · exact .value (hf _ _)
  · exact .fault List.mem_cons_self

theorem add_settles (op : Token) (v w : Value) :
    Settles op [.operandsNotNumbers, .operandsNotAddable] (add op v w) := by
  unfold add
  split
  case h_4 => exact .fault (List.mem_cons_of_mem _ List.mem_cons_self)
  all_goals exact .value rfl

theorem binaryOp_settles {op : Token} (hop : op.kind.isBinary = true) (v w : Value) :
    Settles op [.operandsNotNumbers, .operandsNotAddable] (binaryOp op v w) := by
  unfold binaryOp
  split
  case h_1 => exact add_settles op v w
  case h_9 => exact .value rfl
  case h_10 => exact .value rfl
  case h_11 =>
    exfalso
    cases hk : op.kind with
    | symbol s => cases s <;> simp_all [Kind.isBinary]
    | _ => simp_all [Kind.isBinary]
  all_goals exact numeric_settles op v w fun _ _ => rfl

end Eval
end Lox
