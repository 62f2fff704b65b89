import Lox.Proofs.Lines
import Lox.Proofs.Match.Reports
import Lox.Proofs.Match.Self
import Lox.Proofs.Parse.Completeness

/-!
# Reading two texts as one

Two texts that can each be read, one below the other, are a text that can be read: the second is no
continuation of the first, since it can be read alone. The joined text spells both programs, one after the
other, the second some lines further down. Identities are handed out anew.
-/

namespace Lox

/-! ## Trees that are the same up to identities -/

section

variable {ρ : Matching}

mutual

/-- Where any identity may stand for any other, those of the second tree may be forgotten. -/
theorem Expr.Matched.erase (hany : ∀ i j, ρ.node i j) {e t : Expr} : e.Matched ρ t → e.Matched ρ t.erase
  | .literal v => .literal v
  | .group h => .group (h.erase hany)
  | .unary hop h => .unary hop (h.erase hany)
  | .binary hl hop hr => .binary (hl.erase hany) hop (hr.erase hany)
  | .logical hl hop hr => .logical (hl.erase hany) hop (hr.erase hany)
  | .var _ hname => .var (hany _ _) hname
  | .assign _ hname h => .assign (hany _ _) hname (h.erase hany)
  | .call hc hp ha => .call (hc.erase hany) hp (ha.erase hany)
  | .get h hname => .get (h.erase hany) hname
  | .set ho hname h => .set (ho.erase hany) hname (h.erase hany)
  | .thisRef _ hk => .thisRef (hany _ _) hk
  | .superRef _ hk hm => .superRef (hany _ _) hk hm

theorem Expr.MatchedAll.erase (hany : ∀ i j, ρ.node i j) {es ts : List Expr} :
    Expr.MatchedAll ρ es ts → Expr.MatchedAll ρ es (Expr.eraseAll ts)
  | .nil => .nil
  | .cons h hr => .cons (h.erase hany) (hr.erase hany)

end

mutual

theorem Stmt.Matched.erase (hany : ∀ i j, ρ.node i j) {s t : Stmt} : s.Matched ρ t → s.Matched ρ t.erase
  | .expr h => .expr (h.erase hany)
  | .print h => .print (h.erase hany)
  | .varDecl hname .none => .varDecl hname .none
  | .varDecl hname (.some h) => .varDecl hname (.some (h.erase hany))
  | .block h => .block (h.erase hany)
  | .branch hc hy => .branch (hc.erase hany) (hy.erase hany)
  | .branchElse hc hy hn => .branchElse (hc.erase hany) (hy.erase hany) (hn.erase hany)
  | .loop hc hb => .loop (hc.erase hany) (hb.erase hany)
  | .breakLoop hk => .breakLoop hk
  | .function h => .function (h.erase hany)
  | .returnWith hk .none => .returnWith hk .none
  | .returnWith hk (.some h) => .returnWith hk (.some (h.erase hany))
  | .classDecl hname hm => .classDecl hname (hm.erase hany)
  | .subclassDecl hname _ hs hm => .subclassDecl hname (hany _ _) hs (hm.erase hany)
  | .execute hk h => .execute hk (h.erase hany)

theorem Stmt.MatchedAll.erase (hany : ∀ i j, ρ.node i j) {ss ts : List Stmt} :
    Stmt.MatchedAll ρ ss ts → Stmt.MatchedAll ρ ss (Stmt.eraseAll ts)
  | .nil => .nil
  | .cons h hr => .cons (h.erase hany) (hr.erase hany)

theorem Routine.Matched.erase (hany : ∀ i j, ρ.node i j) {r t : Routine} : r.Matched ρ t → r.Matched ρ t.erase
  | .mk hname hparams h => .mk hname hparams (h.erase hany)

theorem Routine.MatchedAll.erase (hany : ∀ i j, ρ.node i j) {rs ts : List Routine} :
    Routine.MatchedAll ρ rs ts → Routine.MatchedAll ρ rs (Routine.eraseAll ts)
  | .nil => .nil
  | .cons h hr => .cons (h.erase hany) (hr.erase hany)

end

mutual

/-- Any identities may then be put in again. -/
theorem Expr.Matched.of_erase (hany : ∀ i j, ρ.node i j) : {e : Expr} → (t : Expr) → e.Matched ρ t.erase → e.Matched ρ t
  | _, .literal _, h => h
  | _, .group t, .group h => .group (.of_erase hany t h)
  | _, .unary _ t, .unary hop h => .unary hop (.of_erase hany t h)
  | _, .binary l _ r, .binary hl hop hr => .binary (.of_erase hany l hl) hop (.of_erase hany r hr)
  | _, .logical l _ r, .logical hl hop hr => .logical (.of_erase hany l hl) hop (.of_erase hany r hr)
  | _, .var _ _, .var _ hname => .var (hany _ _) hname
  | _, .assign _ _ t, .assign _ hname h => .assign (hany _ _) hname (.of_erase hany t h)
  | _, .call c _ args, .call hc hp ha => .call (.of_erase hany c hc) hp (.of_erase hany args ha)
  | _, .get t _, .get h hname => .get (.of_erase hany t h) hname
  | _, .set o _ t, .set ho hname h => .set (.of_erase hany o ho) hname (.of_erase hany t h)
  | _, .thisRef _ _, .thisRef _ hk => .thisRef (hany _ _) hk
  | _, .superRef _ _ _, .superRef _ hk hm => .superRef (hany _ _) hk hm

theorem Expr.MatchedAll.of_erase (hany : ∀ i j, ρ.node i j) :
    {es : List Expr} → (ts : List Expr) → Expr.MatchedAll ρ es (Expr.eraseAll ts) → Expr.MatchedAll ρ es ts
  | _, [], .nil => .nil
  | _, t :: ts, .cons h hr => .cons (.of_erase hany t h) (.of_erase hany ts hr)

end

mutual

theorem Stmt.Matched.of_erase (hany : ∀ i j, ρ.node i j) : {s : Stmt} → (t : Stmt) → s.Matched ρ t.erase → s.Matched ρ t
  | _, .expr t, .expr h => .expr (.of_erase hany t h)
  | _, .print t, .print h => .print (.of_erase hany t h)
  | _, .varDecl _ none, .varDecl hname .none => .varDecl hname .none
  | _, .varDecl _ (some t), .varDecl hname (.some h) => .varDecl hname (.some (.of_erase hany t h))
  | _, .block body, .block h => .block (.of_erase hany body h)
  | _, .branch c y none, .branch hc hy => .branch (.of_erase hany c hc) (.of_erase hany y hy)
  | _, .branch c y (some n), .branchElse hc hy hn =>
    .branchElse (.of_erase hany c hc) (.of_erase hany y hy) (.of_erase hany n hn)
  | _, .loop c b, .loop hc hb => .loop (.of_erase hany c hc) (.of_erase hany b hb)
  | _, .breakLoop _, .breakLoop hk => .breakLoop hk
  | _, .function decl, .function h => .function (.of_erase hany decl h)
  | _, .returnWith _ none, .returnWith hk .none => .returnWith hk .none
  | _, .returnWith _ (some t), .returnWith hk (.some h) => .returnWith hk (.some (.of_erase hany t h))
  | _, .classDecl _ none methods, .classDecl hname hm => .classDecl hname (.of_erase hany methods hm)
  | _, .classDecl _ (some parent) methods, h => by
    cases parent <;> cases h
    case var hname _ hs hm => exact .subclassDecl hname (hany _ _) hs (.of_erase hany methods hm)
  | _, .execute _ t, .execute hk h => .execute hk (.of_erase hany t h)

theorem Stmt.MatchedAll.of_erase (hany : ∀ i j, ρ.node i j) :
    {ss : List Stmt} → (ts : List Stmt) → Stmt.MatchedAll ρ ss (Stmt.eraseAll ts) → Stmt.MatchedAll ρ ss ts
  | _, [], .nil => .nil
  | _, t :: ts, .cons h hr => .cons (.of_erase hany t h) (.of_erase hany ts hr)

theorem Routine.Matched.of_erase (hany : ∀ i j, ρ.node i j) :
    {r : Routine} → (t : Routine) → r.Matched ρ t.erase → r.Matched ρ t
  | _, ⟨_, _, body⟩, .mk hname hparams h => .mk hname hparams (.of_erase hany body h)

theorem Routine.MatchedAll.of_erase (hany : ∀ i j, ρ.node i j) :
    {rs : List Routine} → (ts : List Routine) → Routine.MatchedAll ρ rs (Routine.eraseAll ts) →
      Routine.MatchedAll ρ rs ts
  | _, [], .nil => .nil
  | _, t :: ts, .cons h hr => .cons (.of_erase hany t h) (.of_erase hany ts hr)

end

/-- A program may be put for one that differs in identities. -/
theorem Stmt.MatchedAll.congr_erase (hany : ∀ i j, ρ.node i j) {ss ts ts' : List Stmt} (h : Stmt.MatchedAll ρ ss ts)
    (he : Stmt.eraseAll ts' = Stmt.eraseAll ts) : Stmt.MatchedAll ρ ss ts' :=
  .of_erase hany ts' (he ▸ h.erase hany)

end

theorem Stmt.eraseAll_append (ss ts : List Stmt) :
    Stmt.eraseAll (ss ++ ts) = Stmt.eraseAll ss ++ Stmt.eraseAll ts := by
  induction ss with
  | nil => rfl
  | cons s rest ih => exact congrArg (s.erase :: ·) ih

/-- A program that is two programs up to identities is two programs. -/
theorem Stmt.eraseAll_eq_append {ts ss us : List Stmt}
    (h : Stmt.eraseAll ts = Stmt.eraseAll ss ++ us) :
    ∃ ts₁ ts₂, ts = ts₁ ++ ts₂ ∧ Stmt.eraseAll ts₁ = Stmt.eraseAll ss ∧ Stmt.eraseAll ts₂ = us := by
  induction ss generalizing ts with
  | nil => exact ⟨[], ts, rfl, rfl, h⟩
  | cons s rest ih =>
    cases ts with
    | nil => cases h
    | cons t ts =>
      obtain ⟨ht, hts⟩ := List.cons.inj h
      obtain ⟨ts₁, ts₂, rfl, h₁, h₂⟩ := ih hts
      refine ⟨t :: ts₁, ts₂, rfl, ?_, h₂⟩
      rw [Stmt.eraseAll, Stmt.eraseAll, ht, h₁]

theorem Stmt.nodesAll_append (ss ts : List Stmt) :
    Stmt.nodesAll (ss ++ ts) = Stmt.nodesAll ss ++ Stmt.nodesAll ts := by
  induction ss with
  | nil => rfl
  | cons s rest ih =>
    rw [List.cons_append, Stmt.nodesAll, Stmt.nodesAll, ih, List.append_assoc]

/-! ## Tokens -/

namespace Grammar

/-- One program after another is a program. -/
theorem Derives.append {nearest : Bool} {ts us : List Token} {ss rest : List Stmt}
    (h : Derives nearest .declarations ts ss) (h' : Derives nearest .declarations us rest) :
    Derives nearest .declarations (ts ++ us) (ss ++ rest) := by
  induction ss generalizing ts with
  | nil =>
    cases h with
    | noDeclarations => exact h'
  | cons s ss ih =>
    cases h with
    | moreDeclarations hd hds =>
      rw [List.append_assoc, List.cons_append]
      exact .moreDeclarations hd (ih hds)

end Grammar

namespace Item

theorem tokens_append (items later : List Item) :
    tokens (items ++ later) = tokens items ++ tokens later :=
  List.filterMap_append

theorem errors_append (items later : List Item) :
    errors (items ++ later) = errors items ++ errors later :=
  List.filterMap_append

theorem mem_of_mem_tokens {items : List Item} {t : Token} (h : t ∈ tokens items) : .ok t ∈ items := by
  obtain ⟨item, hi, ht⟩ := List.mem_filterMap.1 h
  cases item with
  | ok u =>
    cases ht
    exact hi
  | error e => cases ht

/-- Where nothing is at fault, all strings are closed. -/
theorem closed_of_errors {items : List Item} (h : errors items = []) :
    ∀ item ∈ items, Scan.Closed (some item) := by
  intro item hi
  cases item with
  | ok t => trivial
  | error e =>
    have hmem : e ∈ errors items := List.mem_filterMap.2 ⟨_, hi, rfl⟩
    rw [h] at hmem
    cases hmem

end Item

/-- The tokens of a text before its end. -/
def Token.body (source : String) : List Token :=
  (Item.tokens (Token.scan source)).takeWhile (!Parse.isEof ·)

/-- The end of a text is its last item. -/
theorem Token.body_eq (source : String) :
    Token.body source = Item.tokens (Token.scan source).dropLast := by
  obtain ⟨init, last, heq, hinit⟩ := Scan.items_eof source.length 1 source.toList
  have hscan : Token.scan source = init ++ [.ok (Scan.eofToken last)] := heq
  have hnone : ∀ t ∈ Item.tokens init, (!Parse.isEof t) = true := by
    intro t ht
    have hkind := hinit t (Item.mem_of_mem_tokens ht)
    rw [Bool.not_eq_true', Bool.eq_false_iff]
    exact fun he => hkind ((Parse.isEof_iff t).1 he)
  unfold Token.body
  rw [hscan, List.dropLast_concat, Item.tokens_append, List.takeWhile_append_of_pos hnone]
  exact List.append_nil _

/-- Below a text without faults stands the other text, some lines further down. -/
theorem Token.body_join {first second : String} (h : Item.errors (Token.scan first) = []) :
    Token.body (first ++ "\n" ++ second) = Token.body first ++
      (Token.body second).map (Token.shift (Scan.newlines first.toList + 1)) := by
  have hne : (Token.scan second).map (Item.shift (Scan.newlines first.toList + 1)) ≠ [] :=
    fun hnil => Scan.items_ne_nil _ _ _ (List.map_eq_nil_iff.1 hnil)
  rw [body_eq, body_eq, body_eq, Token.scan_join first second (Item.closed_of_errors h),
    List.dropLast_append_of_ne_nil hne, Item.tokens_append, ← List.map_dropLast, Item.tokens_map_shift]

theorem Item.errors_join {first second : String} (h : Item.errors (Token.scan first) = [])
    (h' : Item.errors (Token.scan second) = []) :
    Item.errors (Token.scan (first ++ "\n" ++ second)) = [] := by
  have hinit : Item.errors (Token.scan first).dropLast = [] := by
    refine List.eq_nil_iff_forall_not_mem.2 fun e he => ?_
    have hsub : (Token.scan first).dropLast.Sublist (Token.scan first) := List.dropLast_sublist _
    have hmem : e ∈ Item.errors (Token.scan first) := (hsub.filterMap _).subset he
    rw [h] at hmem
    cases hmem
  rw [Token.scan_join first second (Item.closed_of_errors h), Item.errors_append, hinit,
    Item.errors_map_shift, h']
  rfl

/-! ## Programs -/

theorem Stmt.read_eq_ok {source : String} {i j : Nat} {program : List Stmt} :
    Stmt.read source i = (.ok program, j) ↔ Item.errors (Token.scan source) = [] ∧
      Stmt.parse (Item.tokens (Token.scan source)) i = (.ok program, j) := by
  unfold Stmt.read
  dsimp only
  cases Stmt.parse (Item.tokens (Token.scan source)) i with
  | mk result next =>
    cases result with
    | error es => simp
    | ok program' =>
      cases Item.errors (Token.scan source) with
      | nil => simp
      | cons e rest => simp

/-- Any identity, and lines `c` further down. -/
def Matching.lower (c : Nat) : Matching := .anyNode fun k l => l = k + c

theorem Parse.abreast_lower (c : Nat) : Parse.Abreast (.lower c) fun _ _ => True :=
  ⟨fun _ => trivial, fun _ _ => trivial⟩

theorem Token.matchedAll_shift (c : Nat) (ts : List Token) :
    List.Forall₂ (Token.Matched (.lower c)) ts (ts.map (Token.shift c)) := by
  induction ts with
  | nil => exact .nil
  | cons t rest ih => exact .cons ⟨rfl, rfl, rfl⟩ ih

/-- The words of a program some lines further down spell that program, with lines further down. -/
theorem Stmt.derives_shift {source : String} {i j : Nat} {program : List Stmt} (c : Nat)
    (h : Stmt.read source i = (.ok program, j)) :
    ∃ lowered, Stmt.MatchedAll (.lower c) program lowered ∧
      Grammar.Derives true .declarations ((Token.body source).map (Token.shift c)) lowered := by
  obtain ⟨-, hp⟩ := Stmt.read_eq_ok.1 h
  have hm := Stmt.parse_matched (Parse.abreast_lower c)
    (Token.matchedAll_shift c (Item.tokens (Token.scan source))) (Item.exists_eof source)
    (i := i) (j := i) trivial
  rw [hp] at hm
  cases hr : (Stmt.parse ((Item.tokens (Token.scan source)).map (Token.shift c)) i).1 with
  | error es =>
    rw [hr] at hm
    cases hm.1
  | ok lowered =>
    rw [hr] at hm
    cases hm.1 with
    | ok hlowered =>
      refine ⟨lowered, hlowered, ?_⟩
      have hd := (Stmt.parse_sound hr).1
      rw [List.takeWhile_map] at hd
      exact hd

/-- Two texts that can be read are a text that can be read when one stands below the other. It spells the
first program, and the second some lines further down. -/
theorem Stmt.read_join {first second : String} {i j i' j' : Nat} {p₁ p₂ : List Stmt}
    (h₁ : Stmt.read first i = (.ok p₁, j)) (h₂ : Stmt.read second i' = (.ok p₂, j')) (k : Nat) :
    ∃ q₁ q₂ next, Stmt.read (first ++ "\n" ++ second) k = (.ok (q₁ ++ q₂), next) ∧
      Stmt.MatchedAll (.lower 0) p₁ q₁ ∧
      Stmt.MatchedAll (.lower (Scan.newlines first.toList + 1)) p₂ q₂ := by
  obtain ⟨he₁, hp₁⟩ := Stmt.read_eq_ok.1 h₁
  obtain ⟨he₂, -⟩ := Stmt.read_eq_ok.1 h₂
  have hd₁ : Grammar.Derives true .declarations (Token.body first) p₁ :=
    (Stmt.parse_sound (congrArg Prod.fst hp₁)).1
  obtain ⟨lowered, hlowered, hd₂⟩ := Stmt.derives_shift (Scan.newlines first.toList + 1) h₂
  have hd := hd₁.append hd₂
  rw [← Token.body_join he₁] at hd
  obtain ⟨program, hprogram, herase⟩ := Stmt.parse_complete hd k
  rw [Stmt.eraseAll_append] at herase
  obtain ⟨q₁, q₂, rfl, hq₁, hq₂⟩ := Stmt.eraseAll_eq_append herase
  have hself : Stmt.MatchedAll (.lower 0) p₁ p₁ :=
    Stmt.matchedAll_self (fun _ => rfl) p₁ (Stmt.read_sound h₁).1 fun _ _ => trivial
  refine ⟨q₁, q₂, (Stmt.parse (Item.tokens (Token.scan (first ++ "\n" ++ second))) k).2, ?_, ?_, ?_⟩
  · rw [Stmt.read_eq_ok]
    exact ⟨Item.errors_join he₁ he₂, Prod.ext hprogram rfl⟩
  · exact hself.congr_erase (fun _ _ => trivial) hq₁
  · exact hlowered.congr_erase (fun _ _ => trivial) hq₂

end Lox
