import Lox.Proofs.Parse.Safety

/-!
# Tokens behind the end

The vector of a parser holds all tokens, and its parser stops at the first `eof`. What is behind that makes no
difference: not to the places a rule goes to, to what it finds there or to how it ends, and so not to the program or
the faults that come of the tokens, although the bound on the depth is taken from the number of all of them.
-/

namespace Lox

namespace Parse

section behind

variable {before : List Token} {eof : Token} (hbefore : ∀ t ∈ before, isEof t = false) (heof : isEof eof = true)
include hbefore heof

theorem takeWhile_before (junk : List Token) : (before ++ eof :: junk).takeWhile (!isEof ·) = before := by
  rw [List.takeWhile_append_of_pos fun t ht => by simp [hbefore t ht], List.takeWhile_cons_of_neg (by simp [heof]),
    List.append_nil]

theorem endOf_before (junk : List Token) : endOf (before ++ eof :: junk) = eof := by
  have hnone : before.find? isEof = none := List.find?_eq_none.2 fun t ht => by simp [hbefore t ht]
  have hfind : (before ++ eof :: junk).find? isEof = some eof := by
    rw [List.find?_append, hnone, Option.none_or, List.find?_cons_of_pos heof]
  rw [endOf, hfind]

theorem firstEof_before (junk : List Token) : firstEof (before ++ eof :: junk) = before.length := by
  have hlen := congrArg List.length (take_firstEof (before ++ eof :: junk))
  have hlt := firstEof_lt (before ++ eof :: junk)
  rw [takeWhile_before hbefore heof, List.length_take] at hlen
  omega

/-- What is behind the `eof` does not count for the place of what is left before it. -/
theorem at_before_iff (junk : List Token) {i : Nat} {s : State} :
    s.At (before ++ eof :: junk) i ↔ i ≤ before.length ∧ s.rest = before.drop i ∧ s.eof = eof := by
  have hfirst := firstEof_before hbefore heof junk
  have htake := take_firstEof (before ++ eof :: junk)
  have hget := getElem?_firstEof (before ++ eof :: junk)
  rw [takeWhile_before hbefore heof] at htake
  rw [endOf_before hbefore heof] at hget
  constructor
  · intro h
    refine ⟨hfirst ▸ h.le, ?_, ?_⟩
    · rw [h.rest, htake]
    · exact Option.some.inj (h.eof.symm.trans hget)
  · rintro ⟨hi, hrest, rfl⟩
    exact ⟨hfirst.symm ▸ hi, by rw [hrest, htake], hget⟩

end behind

end Parse

namespace Parser
open Parse (State Goal program isEof ended firstEof depth)

/-- The parser at the same place among other tokens. -/
def among (tokens : List Token) (p : Parser) : Parser := { p with tokens := (ended tokens).toArray }

/-- The same end, at the same place among other tokens. -/
def endAmong {α : Type} (tokens : List Token) : EStateM.Result Halt Parser α → EStateM.Result Halt Parser α
  | .ok a p => .ok a (p.among tokens)
  | .error halt p => .error halt (p.among tokens)

section behind

variable {before : List Token} {eof : Token} (hbefore : ∀ t ∈ before, isEof t = false) (heof : isEof eof = true)
  (junk : List Token) {p : Parser}
include hbefore heof

theorem Tracks.among {s : State} (h : Tracks (before ++ [eof]) p s) :
    Tracks (before ++ eof :: junk) (p.among (before ++ eof :: junk)) s where
  vector := rfl
  place := (Parse.at_before_iff hbefore heof junk).2 ((Parse.at_before_iff hbefore heof []).1 h.place)
  nextId := h.nextId
  errors := h.errors

/-- Among more tokens, a rule goes from place to place as it does among those up to the `eof`. -/
theorem parse_among (h : p.Within (before ++ [eof])) (goal : Goal) (n : Nat) :
    goal.read n (p.among (before ++ eof :: junk)) = endAmong (before ++ eof :: junk) (goal.read n p) := by
  obtain ⟨s, hs⟩ := h.tracks
  -- both follow the one reading of the tokens before the `eof`
  have hup := follows (before ++ [eof]) n goal p s hs
  have hall := follows (before ++ eof :: junk) n goal _ s (hs.among hbefore heof junk)
  generalize goal.read n p = x at hup ⊢
  generalize goal.read n (p.among _) = x' at hall ⊢
  generalize goal.read n s = y at hup hall
  cases hup with
  | ok ha h =>
    obtain ⟨a, p', rfl, ha', h'⟩ := hall.ok_eq
    rw [ha', ← ha, h'.unique (h.among hbefore heof junk)]
    rfl
  | halt h =>
    cases hall with
    | halt h' =>
      rw [h'.unique (h.among hbefore heof junk)]
      rfl

theorem parse_before (nextId : Nat) :
    parse (before ++ eof :: junk) nextId = parse (before ++ [eof]) nextId := by
  obtain ⟨stmts, p, -, -, hprogram, -⟩ := program_follows (before ++ [eof]) nextId
  have hle : depth (before ++ [eof]).length ≤ depth (before ++ eof :: junk).length := by
    unfold depth
    simp only [List.length_append, List.length_cons, List.length_nil]
    omega
  have hamong := parse_among hbefore heof junk (new_tracks (before ++ [eof]) nextId).within .program
    (depth (before ++ eof :: junk).length)
  change program _ (new (before ++ eof :: junk) nextId) = endAmong _ (program _ (new (before ++ [eof]) nextId))
    at hamong
  rw [hprogram _ hle] at hamong
  rw [parse, parse, hamong, hprogram _ (Nat.le_refl _)]
  rfl

end behind

/-- What is behind the first `eof` makes no difference to the program, the faults and the identities that come of the
tokens, and something does come of them. From any place up to the `eof`, every rule does the same among all the tokens
as among those up to it, where there is no token behind the `eof` to look at; it comes to the same place, which is not
behind the `eof`, with the same result, fault or stop. -/
theorem parse_past_eof {before : List Token} {eof : Token} (hbefore : ∀ t ∈ before, isEof t = false)
    (heof : isEof eof = true) (junk : List Token) (nextId : Nat) :
    parse (before ++ eof :: junk) nextId = parse (before ++ [eof]) nextId ∧
    (∃ result, parse (before ++ [eof]) nextId = .ok result) ∧
    ∀ p : Parser, p.tokens = (before ++ [eof]).toArray → p.current ≤ before.length → ∀ (goal : Goal) (n : Nat),
      goal.read n (p.among (before ++ eof :: junk)) = endAmong (before ++ eof :: junk) (goal.read n p) ∧
        (Ending.state (goal.read n p)).current ≤ before.length := by
  refine ⟨parse_before hbefore heof junk nextId, ⟨_, parse_eq _ nextId⟩, fun p htokens hle goal n => ?_⟩
  have hfirst : firstEof (before ++ [eof]) = before.length := Parse.firstEof_before hbefore heof []
  have hwithin : p.Within (before ++ [eof]) := by
    refine ⟨?_, hfirst.symm ▸ hle⟩
    rw [htokens, ended, if_pos (by simp [heof])]
  exact ⟨parse_among hbefore heof junk hwithin goal n, hfirst ▸ (hwithin.moves goal n).1.le⟩

/-- `print ; x` with nothing to print and no semicolon at the end. -/
def unfinished : List Token :=
  [⟨.keyword .printKw, "print", 1⟩, ⟨.symbol .semicolon, ";", 1⟩, ⟨.identifier, "x", 2⟩]

/-- The semicolon, but too late, and more. -/
def tooLate : List Token :=
  [⟨.symbol .semicolon, ";", 3⟩, ⟨.eof, "", 4⟩, ⟨.keyword .printKw, "print", 5⟩]

theorem parse_past_eof_unfinished :
    (∀ t ∈ unfinished, isEof t = false) ∧ isEof ⟨.eof, "", 2⟩ = true ∧
    (parse (unfinished ++ ⟨.eof, "", 2⟩ :: tooLate) 0).toOption =
      some (.error [.syntacticAt ⟨.symbol .semicolon, ";", 1⟩ (.expected .expression),
        .syntacticAt ⟨.eof, "", 2⟩ (.expected .expressionEnd)], 1) ∧
    (Ending.state (program (depth 7) (new (unfinished ++ ⟨.eof, "", 2⟩ :: tooLate) 0))).current = 3 := by
  have hbefore : ∀ t ∈ unfinished, isEof t = false := by decide
  have heof : isEof ⟨.eof, "", 2⟩ = true := rfl
  obtain ⟨hparse, -, hplaces⟩ := parse_past_eof hbefore heof tooLate 0
  have hrules := (hplaces (new (unfinished ++ [⟨.eof, "", 2⟩]) 0) rfl (by decide) .program (depth 7)).1
  refine ⟨hbefore, heof, ?_, ?_⟩
  · rw [hparse]
    rfl
  · change program _ (new (unfinished ++ ⟨.eof, "", 2⟩ :: tooLate) 0) = _ at hrules
    rw [hrules]
    rfl

end Parser
end Lox
