import Lox.Proofs.Nodes
import Lox.Proofs.Parse.Growth
import Lox.Proofs.Parse.Steps

/-!
# Expressions read without a fault are in the grammar

A rule of the parser that succeeds and records no fault has read tokens that derive the tree it
gives, with every `else` at the nearest `if`, and has put new identities into that tree.
-/

namespace Lox

namespace Grammar
open Parse

variable {nearest : Bool}

/-- Which tokens stand for an expression that can be assigned to. -/
def TargetTokens (nearest : Bool) (ts : List Token) : Expr → Prop
  | .var _ name => ts = [name] ∧ name.kind = .identifier
  | .get object name => ∃ os dot, ts = os ++ [dot, name] ∧ Derives nearest .call os object ∧
      dot.kind = .symbol .dot ∧ name.kind = .identifier
  | _ => True

def TargetOf (nearest : Bool) : (r : Rule) → List Token → r.Tree → Prop
  | .operation _, ts, e | .call, ts, e | .primary, ts, e => TargetTokens nearest ts e
  | _, _, _ => True

theorem Derives.targetOf {r : Rule} {ts : List Token} {t : r.Tree} (h : Derives nearest r ts t) :
    TargetOf nearest r ts t := by
  induction h with
  | operand _ _ ih => exact ih
  | operation _ hop => rcases hop.tree_eq with rfl | rfl <;> trivial
  | operandCall _ ih => exact ih
  | callPrimary _ ih => exact ih
  | property ho hd hn _ => exact ⟨_, _, rfl, ho, hd, hn⟩
  | var _ hk => exact ⟨rfl, hk⟩
  | _ => trivial

/-- An operation that is a name or a property was written as one. -/
theorem Derives.target {ts : List Token} {e : Expr} {level : Option Level}
    (h : Derives nearest (.operation level) ts e) : TargetTokens nearest ts e :=
  h.targetOf

end Grammar

namespace Parse
open Ending Grammar

theorem Grows.later {α : Type} {p : Parse α} {s s' : State} {a : α} (hp : Grows p)
    (h : p s = .ok a s') : Later s s' := by
  simpa [h] using hp s

/-- The token at the end of the input is an `eof`. -/
def State.Ends (s : State) : Prop := s.eof.kind = .eof

theorem Later.ends {s s' : State} (h : Later s s') (hs : s.Ends) : s'.Ends := by
  rw [State.Ends, h.eof]
  exact hs

theorem Later.length_le {s s' : State} (h : Later s s') : s.errors.length ≤ s'.errors.length :=
  h.errors.length_le

/-- The tokens between two states derive a tree whose identities are new. -/
structure Reads (r : Rule) (s s' : State) (t : r.Tree) : Prop where
  derives : ∃ ts, s.rest = ts ++ s'.rest ∧ Derives true r ts t
  fresh : Fresh s.nextId s'.nextId (r.nodes t)

/-- A rule that succeeds without recording a fault reads what `r` derives. -/
def Sound (r : Rule) (p : Parse r.Tree) : Prop :=
  ∀ ⦃s s' : State⦄ ⦃t : r.Tree⦄, p s = .ok t s' → s.Ends → s'.errors.length = s.errors.length →
    Reads r s s' t

/-- The operands that follow extend what stands before them. -/
def SoundRest (level : Level) (p : Expr → Parse Expr) : Prop :=
  ∀ ⦃s s' : State⦄ ⦃left e : Expr⦄, p left s = .ok e s' → s.Ends →
    s'.errors.length = s.errors.length →
    (∃ ts, s.rest = ts ++ s'.rest ∧ ∀ ls, Derives true (.operation (some level)) ls left →
      Derives true (.operation (some level)) (ls ++ ts) e) ∧
    ∃ ids, e.nodes = left.nodes ++ ids ∧ Fresh s.nextId s'.nextId ids

def SoundSuffixes (p : Expr → Parse Expr) : Prop :=
  ∀ ⦃s s' : State⦄ ⦃left e : Expr⦄, p left s = .ok e s' → s.Ends →
    s'.errors.length = s.errors.length →
    (∃ ts, s.rest = ts ++ s'.rest ∧ ∀ ls, Derives true .call ls left →
      Derives true .call (ls ++ ts) e) ∧
    ∃ ids, e.nodes = left.nodes ++ ids ∧ Fresh s.nextId s'.nextId ids

/-- Arguments after `count` others are no more than the limit allows. -/
def SoundArguments (p : Nat → Parse (List Expr)) : Prop :=
  ∀ ⦃count : Nat⦄ ⦃s s' : State⦄ ⦃es : List Expr⦄, p count s = .ok es s' →
    s.Ends → s'.errors.length = s.errors.length → Reads .arguments s s' es ∧ count + es.length ≤ maxArity

structure ExpressionsSound (n : Nat) : Prop where
  expression : Sound .expression (expression n)
  operation (level : Level) : Sound (.operation (some level)) (operation n level)
  operand (level : Level) : Sound (.operation level.tighter?) (operand n level)
  operationRest (level : Level) : SoundRest level (operationRest n level)
  unary : Sound .unary (unary n)
  suffixed : Sound .call (suffixed n)
  suffixes : SoundSuffixes (suffixes n)
  arguments : SoundArguments (arguments n)
  primary : Sound .primary (primary n)

namespace ExpressionsSound

variable {n : Nat}

theorem next_expression (ih : ExpressionsSound n) : Sound .expression (Parse.expression (n + 1)) := by
  intro s s' e h hs he
  rw [Parse.expression, bind_eq_ok] at h
  obtain ⟨target, s₁, h₁, h⟩ := h
  rw [bind_eq_ok] at h
  obtain ⟨o, s₂, h₂, h⟩ := h
  have g₁ := (Goal.grows n (.operation .or)).later h₁
  have l₁ := g₁.length_le
  rcases accept_eq_ok h₂ with ⟨rfl, rfl, -⟩ | ⟨eq, rest, rfl, hr, hk, rfl⟩
  · obtain ⟨rfl, rfl⟩ := pure_eq_ok.1 h
    obtain ⟨⟨ts, hts, hd⟩, hf⟩ := ih.operation .or h₁ hs he
    exact ⟨⟨ts, hts, .logicOr hd⟩, hf⟩
  · simp only [bind_eq_ok] at h
    obtain ⟨value, s₃, h₃, h⟩ := h
    have g₃ := (Goal.grows n .expression).later h₃
    have l₃ := g₃.length_le
    have g₄ := (Grows.assignTo target eq value).later h
    have l₄ := g₄.length_le
    simp only at l₃
    obtain ⟨⟨ts, hts, hd⟩, hf⟩ := ih.operation .or h₁ hs (by omega)
    obtain ⟨⟨vs, hvs, hv⟩, hfv⟩ := ih.expression h₃ (g₁.ends hs) (by simp only; omega)
    have ht := hd.target
    simp only [Kind.alike_symbol] at hk
    unfold assignTo at h
    split at h
    · next id name =>
      rw [bind_eq_ok] at h
      obtain ⟨i, s₄, h₄, h⟩ := h
      obtain ⟨rfl, rfl⟩ := freshId_eq_ok h₄
      obtain ⟨rfl, rfl⟩ := pure_eq_ok.1 h
      obtain ⟨rfl, hn⟩ := ht
      refine ⟨⟨name :: eq :: vs, ?_, .assignName _ hn hk hv⟩, ?_⟩
      · simpa [hts, hr] using hvs
      · exact (hfv.append (.single _) g₃.nextId (Nat.le_succ _)).widen g₁.nextId (Nat.le_refl _)
    · next object name =>
      obtain ⟨rfl, rfl⟩ := pure_eq_ok.1 h
      obtain ⟨os, dot, rfl, ho, hdot, hn⟩ := ht
      refine ⟨⟨os ++ dot :: name :: eq :: vs, ?_, .assignProperty ho hdot hn hk hv⟩, ?_⟩
      · simpa [hts, hr] using hvs
      · exact hf.append hfv g₁.nextId g₃.nextId
    · rw [bind_eq_ok] at h
      obtain ⟨u, s₄, h₄, h⟩ := h
      obtain ⟨rfl, rfl⟩ := pure_eq_ok.1 h
      have := report_eq_ok h₄
      simp only [this, List.length_append, List.length_singleton] at he l₄
      omega

theorem next_operation (ih : ExpressionsSound n) (level : Level) :
    Sound (.operation (some level)) (Parse.operation (n + 1) level) := by
  intro s s' e h hs he
  rw [Parse.operation, bind_eq_ok] at h
  obtain ⟨left, s₁, h₁, h⟩ := h
  have g₁ := (Goal.grows n (.operand level)).later h₁
  have g₂ := (Goal.grows n (.operationRest level left)).later h
  have l₁ := g₁.length_le
  have l₂ := g₂.length_le
  obtain ⟨⟨ls, hls, hd⟩, hf⟩ := ih.operand level h₁ hs (by omega)
  obtain ⟨⟨ts, hts, hrest⟩, ids, hids, hfr⟩ := ih.operationRest level h (g₁.ends hs) (by omega)
  refine ⟨⟨ls ++ ts, by simp [hls, hts], hrest ls (.operand (operands_iff.2 rfl) hd)⟩, ?_⟩
  show Fresh _ _ e.nodes
  rw [hids]
  exact Fresh.append hf hfr g₁.nextId g₂.nextId

theorem next_operand (ih : ExpressionsSound n) (level : Level) :
    Sound (.operation level.tighter?) (Parse.operand (n + 1) level) := by
  unfold Parse.operand
  cases level.tighter? with
  | none => exact ih.unary
  | some tighter => exact ih.operation tighter

theorem next_operationRest (ih : ExpressionsSound n) (level : Level) :
    SoundRest level (Parse.operationRest (n + 1) level) := by
  intro s s' left e h hs he
  rw [Parse.operationRest, bind_eq_ok] at h
  obtain ⟨o, s₁, h₁, h⟩ := h
  rcases readIf_eq_ok h₁ with ⟨rfl, rfl, -⟩ | ⟨op, rest, rfl, hr, hop, rfl⟩
  · obtain ⟨rfl, rfl⟩ := pure_eq_ok.1 h
    exact ⟨⟨[], rfl, by simp⟩, [], by simp, .nil _ _⟩
  · simp only [bind_eq_ok] at h
    obtain ⟨right, s₂, h₂, h⟩ := h
    have g₂ := (Goal.grows n (.operand level)).later h₂
    have g₃ := (Goal.grows n (.operationRest level _)).later h
    have l₂ := g₂.length_le
    have l₃ := g₃.length_le
    simp only at l₂
    obtain ⟨⟨rs, hrs, hd⟩, hf⟩ := ih.operand level h₂ hs (by simp only; omega)
    obtain ⟨⟨ts, hts, hrest⟩, ids, hids, hfr⟩ := ih.operationRest level h (g₂.ends hs) (by omega)
    refine ⟨⟨op :: rs ++ ts, ?_, ?_⟩, right.nodes ++ ids, ?_, ?_⟩
    · simp only at hrs
      simp [hr, hrs, hts]
    · intro ls hl
      simpa using hrest _ (hl.operation (binary_iff.2 ⟨hop, rfl⟩) (operands_iff.2 rfl) hd)
    · rw [hids, ← List.append_assoc]
      congr 1
      cases level <;> rfl
    · exact Fresh.append hf hfr g₂.nextId g₃.nextId

theorem next_unary (ih : ExpressionsSound n) : Sound .unary (Parse.unary (n + 1)) := by
  intro s s' e h hs he
  rw [Parse.unary, bind_eq_ok] at h
  obtain ⟨o, s₁, h₁, h⟩ := h
  rcases readIf_eq_ok h₁ with ⟨rfl, rfl, -⟩ | ⟨op, rest, rfl, hr, hop, rfl⟩
  · obtain ⟨⟨ts, hts, hd⟩, hf⟩ := ih.suffixed h hs he
    exact ⟨⟨ts, hts, .operandCall hd⟩, hf⟩
  · simp only [bind_eq_ok] at h
    obtain ⟨right, s₂, h₂, h⟩ := h
    obtain ⟨rfl, rfl⟩ := pure_eq_ok.1 h
    obtain ⟨⟨ts, hts, hd⟩, hf⟩ := ih.unary h₂ hs he
    refine ⟨⟨op :: ts, ?_, .unary (unary_iff.2 hop) hd⟩, hf⟩
    simpa [hr] using hts

theorem next_suffixed (ih : ExpressionsSound n) : Sound .call (Parse.suffixed (n + 1)) := by
  intro s s' e h hs he
  rw [Parse.suffixed, bind_eq_ok] at h
  obtain ⟨left, s₁, h₁, h⟩ := h
  have g₁ := (Goal.grows n .primary).later h₁
  have g₂ := (Goal.grows n (.suffixes left)).later h
  have l₁ := g₁.length_le
  have l₂ := g₂.length_le
  obtain ⟨⟨ls, hls, hd⟩, hf⟩ := ih.primary h₁ hs (by omega)
  obtain ⟨⟨ts, hts, hrest⟩, ids, hids, hfr⟩ := ih.suffixes h (g₁.ends hs) (by omega)
  refine ⟨⟨ls ++ ts, by simp [hls, hts], hrest ls (.callPrimary hd)⟩, ?_⟩
  show Fresh _ _ e.nodes
  rw [hids]
  exact Fresh.append hf hfr g₁.nextId g₂.nextId

/-- One call after what stands before it, and the suffixes after that. -/
theorem suffixes_call (ih : ExpressionsSound n) {s s₁ s' : State} {left e : Expr}
    {lp paren : Token} {ts : List Token} {args : List Expr}
    (h : Parse.suffixes n (.call left paren args) s₁ = .ok e s') (hs : s₁.Ends)
    (he : s'.errors.length = s₁.errors.length) (hr : s.rest = lp :: (ts ++ paren :: s₁.rest))
    (hlp : lp.kind = .symbol .leftParen) (hrp : paren.kind = .symbol .rightParen)
    (hargs : ts = [] ∧ args = [] ∨ Derives true .arguments ts args ∧ args.length ≤ 8)
    (hid : s.nextId ≤ s₁.nextId) (hf : Fresh s.nextId s₁.nextId (Expr.nodesAll args)) :
    (∃ ts, s.rest = ts ++ s'.rest ∧ ∀ ls, Derives true .call ls left →
      Derives true .call (ls ++ ts) e) ∧
    ∃ ids, e.nodes = left.nodes ++ ids ∧ Fresh s.nextId s'.nextId ids := by
  have g := (Goal.grows n (.suffixes _)).later h
  obtain ⟨⟨us, hus, hrest⟩, ids, hids, hfr⟩ := ih.suffixes h hs he
  refine ⟨⟨lp :: (ts ++ paren :: us), ?_, ?_⟩, Expr.nodesAll args ++ ids, ?_, ?_⟩
  · rw [hr, hus]
    simp
  · intro ls hl
    rcases hargs with ⟨rfl, rfl⟩ | ⟨ha, hlen⟩
    · simpa using hrest _ (hl.callNone hlp hrp)
    · simpa using hrest _ (hl.callArgs hlp ha hlen hrp)
  · rw [hids, Expr.nodes, List.append_assoc]
  · exact hf.append hfr hid g.nextId

theorem next_suffixes (ih : ExpressionsSound n) : SoundSuffixes (Parse.suffixes (n + 1)) := by
  intro s s' left e h hs he
  rw [Parse.suffixes, bind_eq_ok] at h
  obtain ⟨o, s₁, h₁, h⟩ := h
  rcases accept_eq_ok h₁ with ⟨rfl, rfl, -⟩ | ⟨lp, rest, rfl, hr, hlp, rfl⟩
  · rw [bind_eq_ok] at h
    obtain ⟨o, s₂, h₂, h⟩ := h
    rcases accept_eq_ok h₂ with ⟨rfl, rfl, -⟩ | ⟨dot, rest, rfl, hr, hdot, rfl⟩
    · obtain ⟨rfl, rfl⟩ := pure_eq_ok.1 h
      exact ⟨⟨[], rfl, by simp⟩, [], by simp, .nil _ _⟩
    · simp only [bind_eq_ok] at h
      obtain ⟨name, s₃, h₃, h⟩ := h
      obtain ⟨rest', hr', hn, rfl⟩ := expect_eq_ok h₃
      obtain ⟨⟨ts, hts, hrest⟩, ids, hids, hfr⟩ := ih.suffixes h hs he
      refine ⟨⟨dot :: name :: ts, ?_, ?_⟩, ids, hids, hfr⟩
      · simp only at hr' hts
        simp [hr, hr', hts]
      · intro ls hl
        simpa using hrest _ (hl.property (by simpa using hdot) (by simpa using hn))
  · simp only [Kind.alike_symbol] at hlp
    simp only [bind_eq_ok] at h
    obtain ⟨b, s₂, h₂, h⟩ := h
    obtain ⟨rfl, rfl⟩ := sees_eq_ok h₂
    split at h
    · simp only [bind_eq_ok, pure_eq_ok] at h
      obtain ⟨args, s₃, ⟨rfl, rfl⟩, paren, s₄, h₄, h⟩ := h
      obtain ⟨rest', hr', hp, rfl⟩ := expect_eq_ok h₄
      simp only at hr'
      refine suffixes_call ih h hs he ?_ hlp (by simpa using hp) (.inl ⟨rfl, rfl⟩) (Nat.le_refl _)
        (.nil _ _)
      simp [hr, hr']
    · simp only [bind_eq_ok] at h
      obtain ⟨args, s₃, h₃, paren, s₄, h₄, h⟩ := h
      obtain ⟨rest', hr', hp, rfl⟩ := expect_eq_ok h₄
      have g₃ := (Goal.grows n (.arguments 0)).later h₃
      have g₄ := (Goal.grows n (.suffixes _)).later h
      have l₃ := g₃.length_le
      have l₄ := g₄.length_le
      simp only at l₃ l₄
      obtain ⟨⟨⟨ts, hts, hd⟩, hf⟩, hlen⟩ := ih.arguments h₃ hs (by simp only; omega)
      refine suffixes_call ih h (g₃.ends hs) (by simp only; omega) ?_ hlp (by simpa using hp)
        (.inr ⟨hd, by simpa [maxArity] using hlen⟩) g₃.nextId hf
      simp only at hts
      rw [hr, hts, hr']

theorem next_arguments (ih : ExpressionsSound n) : SoundArguments (Parse.arguments (n + 1)) := by
  intro count s s' es h hs he
  rw [Parse.arguments] at h
  -- one argument too many would have been reported
  have hcount : ¬maxArity ≤ count := by
    intro hc
    simp only [hc, if_true] at h
    have := Grows.length_lt_of_report (Grows.arguments_tail count) h
    omega
  simp only [hcount, if_false, bind_eq_ok] at h
  obtain ⟨first, s₁, h₁, o, s₂, h₂, h⟩ := h
  have g₁ := (Goal.grows n .expression).later h₁
  have l₁ := g₁.length_le
  rcases accept_eq_ok h₂ with ⟨rfl, rfl, -⟩ | ⟨comma, rest, rfl, hr, hk, rfl⟩
  · obtain ⟨rfl, rfl⟩ := pure_eq_ok.1 h
    obtain ⟨⟨ts, hts, hd⟩, hf⟩ := ih.expression h₁ hs he
    refine ⟨⟨⟨ts, hts, .oneArgument hd⟩, ?_⟩, ?_⟩
    · simpa [Rule.nodes, Expr.nodesAll] using hf
    · simp only [List.length_singleton]
      omega
  · simp only [bind_eq_ok] at h
    obtain ⟨es, s₃, h₃, h⟩ := h
    obtain ⟨rfl, rfl⟩ := pure_eq_ok.1 h
    have g₃ := (Goal.grows n (.arguments _)).later h₃
    have l₃ := g₃.length_le
    simp only at l₃
    obtain ⟨⟨ts, hts, hd⟩, hf⟩ := ih.expression h₁ hs (by omega)
    obtain ⟨⟨⟨us, hus, hds⟩, hfs⟩, hlen⟩ := ih.arguments h₃ (g₁.ends hs) (by simp only; omega)
    refine ⟨⟨⟨ts ++ comma :: us, ?_, .moreArguments hd (by simpa using hk) hds⟩, ?_⟩, ?_⟩
    · simp only at hus
      simp [hts, hr, hus]
    · exact Fresh.append hf hfs g₁.nextId g₃.nextId
    · simp only [List.length_cons]
      omega

theorem next_primary (ih : ExpressionsSound n) : Sound .primary (Parse.primary (n + 1)) := by
  intro s s' e h hs he
  rw [Parse.primary, bind_eq_ok] at h
  obtain ⟨t, s₁, h₁, h⟩ := h
  obtain ⟨ht, rfl⟩ := peek_eq_ok h₁
  cases hr : s₁.rest with
  | nil =>
    have hk : t.kind = .eof := by simpa [ht, hr] using (show s₁.eof.kind = .eof from hs)
    simp only [hk] at h
    exact absurd h (reject_ne_ok _)
  | cons u rest =>
    obtain rfl : t = u := by simpa [hr] using ht
    have one {v : Literal} (hw : Writes t.kind v)
        (h : (do skip; return .literal v : Parse Expr) s₁ = .ok e s') : Reads .primary s₁ s' e := by
      simp only [bind_eq_ok] at h
      obtain ⟨u, s₂, h₂, h⟩ := h
      obtain rfl := skip_eq_ok h₂
      obtain ⟨rfl, rfl⟩ := pure_eq_ok.1 h
      exact ⟨⟨[t], by simp [hr], .literal hw⟩, .nil _ _⟩
    generalize hk : t.kind = k at h
    split at h
    · exact one (hk ▸ .false) h
    · exact one (hk ▸ .true) h
    · exact one (hk ▸ .nil) h
    · exact one (hk ▸ .number _) h
    · exact one (hk ▸ .string _) h
    · simp only [bind_eq_ok, superReference, pure_eq_ok] at h
      obtain ⟨u, s₂, h₂, dot, s₃, h₃, method, s₄, h₄, id, s₅, h₅, rfl, rfl⟩ := h
      obtain rfl := skip_eq_ok h₂
      obtain ⟨rest₁, hr₁, hdot, rfl⟩ := expect_eq_ok h₃
      obtain ⟨rest₂, hr₂, hm, rfl⟩ := expect_eq_ok h₄
      obtain ⟨rfl, rfl⟩ := freshId_eq_ok h₅
      simp only at hr₁ hr₂
      refine ⟨⟨[t, dot, method], ?_, .superRef _ hk (by simpa using hdot) (by simpa using hm)⟩,
        .single _⟩
      simpa [hr, hr₂] using hr₁
    · simp only [bind_eq_ok, pure_eq_ok] at h
      obtain ⟨u, s₂, h₂, id, s₃, h₃, rfl, rfl⟩ := h
      obtain rfl := skip_eq_ok h₂
      obtain ⟨rfl, rfl⟩ := freshId_eq_ok h₃
      exact ⟨⟨[t], by simp [hr], .thisRef _ hk⟩, .single _⟩
    · simp only [bind_eq_ok, pure_eq_ok] at h
      obtain ⟨u, s₂, h₂, id, s₃, h₃, rfl, rfl⟩ := h
      obtain rfl := skip_eq_ok h₂
      obtain ⟨rfl, rfl⟩ := freshId_eq_ok h₃
      exact ⟨⟨[t], by simp [hr], .var _ hk⟩, .single _⟩
    · simp only [bind_eq_ok, pure_eq_ok] at h
      obtain ⟨u, s₂, h₂, inner, s₃, h₃, rp, s₄, h₄, rfl, rfl⟩ := h
      obtain rfl := skip_eq_ok h₂
      obtain ⟨rest₁, hr₁, hrp, rfl⟩ := expect_eq_ok h₄
      obtain ⟨⟨ts, hts, hd⟩, hf⟩ := ih.expression h₃ hs he
      refine ⟨⟨t :: (ts ++ [rp]), ?_, .group hk hd (by simpa using hrp)⟩, hf⟩
      simpa [hr, hr₁] using hts
    · exact absurd h (reject_ne_ok _)

end ExpressionsSound

theorem expressionsSound (n : Nat) : ExpressionsSound n := by
  induction n with
  | zero =>
    have none (r : Rule) : Sound r (throw .exhausted) := fun _ _ _ h => nomatch h
    exact
      { expression := none _
        operation := fun _ => none _
        operand := fun _ => none _
        operationRest := fun _ _ _ _ _ h => nomatch h
        unary := none _
        suffixed := none _
        suffixes := fun _ _ _ _ h => nomatch h
        arguments := fun _ _ _ _ h => nomatch h
        primary := none _ }
  | succ n ih =>
    exact
      { expression := ih.next_expression
        operation := ih.next_operation
        operand := ih.next_operand
        operationRest := ih.next_operationRest
        unary := ih.next_unary
        suffixed := ih.next_suffixed
        suffixes := ih.next_suffixes
        arguments := ih.next_arguments
        primary := ih.next_primary }

theorem Sound.expression (n : Nat) : Sound .expression (expression n) :=
  (expressionsSound n).expression

end Parse
end Lox
