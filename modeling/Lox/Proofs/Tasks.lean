import Lox.Proofs.Parse.Acceptance
import Lox.Proofs.Reporting
import Lox.Proofs.Scope.Rules

/-!
# Tasks on the same text

A text can be split into tokens, read into a program or run. Each of these tasks finds out by itself whether the text
is at fault, and what to write about it, and they agree. What is written about the characters of a text comes before
what is written about its grammar. A text that cannot be read is not run, and the same is written about it. If a text
that can be read is refused, then only for its scopes, with one line for each fault.
-/

namespace Lox

/-! ## Faults of a text -/

/-- Something in the text is no token. -/
def Unreadable (source : String) : Prop :=
  ∃ parts last, Splits source.toList parts last ∧ ∃ p ∈ parts, ∀ text kind, p.reading ≠ .token text kind

/-- The grammar does not derive the tokens of the text. -/
def Ungrammatical (source : String) : Prop :=
  ¬ ∃ program, Grammar.Derives false .declarations
    ((Item.tokens (Token.scan source)).takeWhile (!Parse.isEof ·)) program

theorem Part.errors_items_eq_nil_iff (before : List Char) (parts : List Part) :
    Item.errors (Part.items before parts) = [] ↔ ∀ p ∈ parts, ∃ text kind, p.reading = .token text kind := by
  induction parts generalizing before with
  | nil => exact iff_of_true rfl (List.forall_mem_nil _)
  | cons p rest ih =>
    rw [List.forall_mem_cons, ← ih (before ++ p.gap ++ p.reading.text), Part.items]
    cases p.reading with
    | token text kind => exact (and_iff_right ⟨text, kind, rfl⟩).symm
    | unexpected c =>
      refine iff_of_false (List.cons_ne_nil _ _) ?_
      rintro ⟨⟨_, _, hr⟩, -⟩
      cases hr
    | unterminated contents =>
      refine iff_of_false (List.cons_ne_nil _ _) ?_
      rintro ⟨⟨_, _, hr⟩, -⟩
      cases hr

theorem Item.errors_ne_nil_iff (source : String) :
    Item.errors (Token.scan source) ≠ [] ↔ Unreadable source := by
  obtain ⟨parts, last, hsplits, hscan⟩ := Scan.splits_scan source
  have herrors : Item.errors (Token.scan source) = Item.errors (Part.items [] parts) := by
    rw [hscan, Item.errors, List.filterMap_append]
    exact List.append_nil _
  rw [herrors, ne_eq, Part.errors_items_eq_nil_iff]
  constructor
  · intro hsome
    push Not at hsome
    exact ⟨parts, last, hsplits, hsome⟩
  · rintro ⟨parts', last', hsplits', p, hp, hno⟩ hall
    obtain ⟨rfl, -⟩ := hsplits.unique hsplits'
    obtain ⟨text, kind, hr⟩ := hall p hp
    exact hno text kind hr

theorem Stmt.parse_ok_iff (source : String) (nextId : Nat) :
    (∃ program, (Stmt.parse (Item.tokens (Token.scan source)) nextId).1 = .ok program) ↔
      ¬ Ungrammatical source := by
  unfold Ungrammatical
  rw [not_not]
  constructor
  · rintro ⟨program, h⟩
    exact ⟨program, (Stmt.parse_sound h).1.switch (.inr rfl)⟩
  · rintro ⟨program, h⟩
    obtain ⟨program', h'⟩ := h.hasNearest
    obtain ⟨stmts, hp, -⟩ := Stmt.parse_complete h' nextId
    exact ⟨stmts, hp⟩

/-! ## Lines -/

theorem Command.lines_append (texts texts' : List String) :
    Command.lines (texts ++ texts') = Command.lines texts ++ Command.lines texts' := by
  unfold Command.lines
  rw [List.map_append, String.join_append]

/-- The lexemes of tokens are such. -/
theorem Splits.lexeme_of_mem_items {cs last : List Char} {parts : List Part} (h : Splits cs parts last)
    {before : List Char} {t : Token} (ht : .ok t ∈ Part.items before parts) :
    Lexeme t.lexeme.toList t.kind := by
  induction h generalizing before with
  | last => cases ht
  | next _ _ hbefore _ ih =>
    rcases List.mem_cons.1 ht with heq | hrest
    · cases hbefore with
      | token hl _ =>
        cases heq
        rwa [String.toList_ofList]
      | unexpected => cases heq
      | unterminated => cases heq
    · exact ih hrest

/-- A keyword or a name. -/
def Kind.IsWord (kind : Kind) : Prop := kind = .identifier ∨ ∃ k, kind = .keyword k

theorem Lexeme.newline_notMem {text : List Char} {kind : Kind} (h : Lexeme text kind) (hk : kind.IsWord) :
    '\n' ∉ text := by
  have hword : ∀ {c : Char} {cs : List Char}, Scan.isLetter c = true →
      (∀ x ∈ cs, Scan.isWordRest x = true) → '\n' ∉ c :: cs := by
    intro c cs hc hcs hmem
    rcases List.mem_cons.1 hmem with rfl | hmem
    · cases hc
    · cases hcs _ hmem
  cases h with
  | keyword k hspelt =>
    obtain ⟨c, cs, rfl, hc, hcs⟩ := Keyword.word_shape hspelt
    exact hword hc hcs
  | identifier hc hcs _ => exact hword hc hcs
  | _ => rcases hk with hk | ⟨_, hk⟩ <;> cases hk

theorem Item.newline_notMem_lexeme {source : String} {t : Token}
    (ht : t ∈ Item.tokens (Token.scan source)) (hk : t.kind.IsWord) : '\n' ∉ t.lexeme.toList := by
  obtain ⟨parts, last, hsplits, hscan⟩ := Scan.splits_scan source
  obtain ⟨item, hitem, hok⟩ := List.mem_filterMap.1 ht
  cases item with
  | error e => cases hok
  | ok u =>
    cases hok
    rw [hscan] at hitem
    rcases List.mem_append.1 hitem with hitem | hitem
    · exact (hsplits.lexeme_of_mem_items hitem).newline_notMem hk
    · cases List.mem_singleton.1 hitem
      rcases hk with hk | ⟨_, hk⟩ <;> cases hk

theorem newline_notMem_append {s t : String} (hs : '\n' ∉ s.toList) (ht : '\n' ∉ t.toList) :
    '\n' ∉ (s ++ t).toList := by
  rw [String.toList_append, List.mem_append, not_or]
  exact ⟨hs, ht⟩

theorem ScopeFault.newline_notMem_message {fault : ScopeFault} (h : ∀ wording, fault ≠ .custom wording) :
    '\n' ∉ fault.message.toList := by
  cases fault with
  | custom wording => exact absurd rfl (h wording)
  | _ => decide +kernel

theorem Error.newline_notMem_text {t : Token} {fault : ScopeFault} (hk : t.kind.IsWord)
    (ht : '\n' ∉ t.lexeme.toList) (hf : ∀ wording, fault ≠ .custom wording) :
    '\n' ∉ (Error.scopingAt t fault).text.toList := by
  have hline : '\n' ∉ (Nat.repr t.line).toList := fun hmem => by
    rw [Nat.toList_repr] at hmem
    have hdigit : '\n'.isDigit = true := Nat.isDigit_of_mem_toDigits (b := 10) (by decide) (by decide) hmem
    cases hdigit
  have hplace : '\n' ∉ t.place.text.toList := by
    have hat : t.place = .at t.lexeme := by
      unfold Token.place
      rcases hk with hk | ⟨_, hk⟩ <;> rw [hk]
    rw [hat]
    exact newline_notMem_append (newline_notMem_append (by decide) ht) (by decide)
  have hrest := newline_notMem_append
    (newline_notMem_append (newline_notMem_append (s := "Error") (by decide) hplace) (t := ": ") (by decide))
    (ScopeFault.newline_notMem_message hf)
  exact newline_notMem_append
    (newline_notMem_append (newline_notMem_append (by decide) hline) (by decide)) hrest

namespace Scoping

/-- A fault is about a word of the program, and known by a fixed message. -/
theorem Event.fault?_eq_some {T : Token → Prop} {e : Event} {error : Error} (h : e.fault? = some error)
    (hw : e.act.Written T) : ∃ t fault, error = .scopingAt t fault ∧ T t ∧ t.kind.IsWord ∧
      ∀ wording, fault ≠ .custom wording := by
  obtain ⟨act, sur⟩ := e
  cases act with
  | refer ref =>
    obtain ⟨access, id, name⟩ := ref
    obtain ⟨ht, hk⟩ := hw
    dsimp only [Event.fault?] at h
    split at h
    · split at h
      · cases h
        exact ⟨name, _, rfl, ht, .inl hk, nofun⟩
      · cases h
    · cases h
    · cases h
      exact ⟨name, _, rfl, ht, .inr ⟨_, hk⟩, nofun⟩
    · cases h
    · cases h
      exact ⟨name, _, rfl, ht, .inr ⟨_, hk⟩, nofun⟩
    · cases h
      exact ⟨name, _, rfl, ht, .inr ⟨_, hk⟩, nofun⟩
    · cases h
  | declare name =>
    dsimp only [Event.fault?] at h
    split at h
    · cases h
    · split at h
      · cases h
        exact ⟨name, _, rfl, hw.1, .inl hw.2, nofun⟩
      · cases h
  | inherit name superclass =>
    obtain ⟨id, superName, rfl, ht, hk⟩ := hw
    dsimp only [Event.fault?] at h
    split at h
    · cases h
      exact ⟨superName, _, rfl, ht, .inl hk, nofun⟩
    · cases h
  | breakLoop keyword =>
    dsimp only [Event.fault?] at h
    split at h
    · cases h
    · cases h
      exact ⟨keyword, _, rfl, hw.1, .inr ⟨_, hw.2⟩, nofun⟩
  | returnWith keyword value =>
    dsimp only [Event.fault?] at h
    split at h
    · cases h
      exact ⟨keyword, _, rfl, hw.1, .inr ⟨_, hw.2⟩, nofun⟩
    · split at h
      · cases h
        exact ⟨keyword, _, rfl, hw.1, .inr ⟨_, hw.2⟩, nofun⟩
      · cases h
    · cases h
  | _ => cases h

end Scoping

open Scoping

/-! ## What each task finds -/

/-- The errors of a text that cannot be read: those of its characters and then those of its grammar. -/
theorem Stmt.read_eq (source : String) (nextId : Nat) :
    (∃ syntactic, (Stmt.read source nextId).1 =
        .error (Item.errors (Token.scan source) ++ syntactic) ∧
      (∀ e ∈ syntactic, e.origin = .syntactic) ∧ (syntactic ≠ [] ↔ Ungrammatical source) ∧
      (Unreadable source ∨ Ungrammatical source)) ∨
    ∃ program, (Stmt.read source nextId).1 = .ok program ∧
      (Stmt.parse (Item.tokens (Token.scan source)) nextId).1 = .ok program ∧
      ¬ Unreadable source ∧ ¬ Ungrammatical source := by
  have hok := Stmt.parse_ok_iff source nextId
  have horigin := @Stmt.origin_of_parse source nextId
  have hne := @Stmt.parse_error_ne_nil (Item.tokens (Token.scan source)) nextId
  rw [← Item.errors_ne_nil_iff]
  unfold Stmt.read
  dsimp only
  generalize Stmt.parse (Item.tokens (Token.scan source)) nextId = r at hok horigin hne ⊢
  obtain ⟨result, next⟩ := r
  cases result with
  | error es =>
    have hbad : Ungrammatical source := by
      by_contra hgood
      obtain ⟨_, hp⟩ := hok.2 hgood
      cases hp
    exact .inl ⟨es, rfl, horigin rfl, iff_of_true (hne rfl) hbad, .inr hbad⟩
  | ok program =>
    have hgood := hok.1 ⟨program, rfl⟩
    by_cases hclean : Item.errors (Token.scan source) = []
    · exact .inr ⟨program, by simp [hclean], rfl, not_not.2 hclean, hgood⟩
    · refine .inl ⟨[], by simp [hclean], List.forall_mem_nil _, ?_, .inl hclean⟩
      exact iff_of_false (not_not.2 rfl) hgood

theorem Machine.compile_of_read_error {m : Machine} {source : String} {es : List Error}
    (h : (Stmt.read source m.nextNode).1 = .error es) : (m.compile source).1 = .error es := by
  unfold Machine.compile
  split
  case h_1 hread =>
    rw [hread] at h
    cases h
    rfl
  case h_2 hread =>
    rw [hread] at h
    cases h

theorem Machine.compile_of_read_ok {m : Machine} {source : String} {program : List Stmt} {es : List Error}
    (h : (Stmt.read source m.nextNode).1 = .ok program) (hc : (m.compile source).1 = .error es) :
    es = (Stmt.analyse program m.distances).errors ∧ es ≠ [] := by
  unfold Machine.compile at hc
  split at hc
  case h_1 hread =>
    rw [hread] at h
    cases h
  case h_2 program' next hread =>
    rw [hread] at h
    cases h
    dsimp only [Machine.analyse] at hc
    split at hc
    case h_1 => cases hc
    case h_2 e rest _ _ herrors =>
      cases hc
      exact ⟨(Prod.ext_iff.1 herrors).1.symm, List.cons_ne_nil _ _⟩

namespace Command

/-- Of a text that is refused only the errors are written. -/
theorem runSource_refused {read : Reader} {source : String} {es : List Error} {t : Session}
    (hc : (Machine.start (hostOf read) {}).compile source = (.error es, t.machine))
    (hadds : (Session.start (hostOf read) {} {}).Adds t es [] (es.map Error.text)) :
    t.machine.output.text = "" ∧ t.diagnostics.text = lines (es.map Error.text) := by
  constructor
  · have hsnd := (Machine.start (hostOf read) {}).compile_snd source
    rw [hc] at hsnd
    exact congrArg (·.output.text) hsnd
  · rw [hadds.diagnostics, (Sink.writes_lines (fun _ => rfl) _).1]
    exact String.empty_append

theorem runSource_of_refused {read : Reader} {source : String} {es : List Error}
    (h : ((Machine.start (hostOf read) {}).compile source).1 = .error es) (fuel : Nat) :
    ∃ ran, runSource read fuel source = some ran ∧ ran.exitCode = 65 ∧ ran.stdout = "" ∧
      ran.stderr = lines (es.map Error.text) := by
  have hrun : ∃ t, (Session.start (hostOf read) {} {}).run (hostOf read) fuel source =
      some (.staticError, t) := by
    unfold Session.run
    split
    · exact ⟨_, rfl⟩
    case h_2 hc =>
      rw [show (Session.start (hostOf read) {} {}).machine = .start (hostOf read) {} from rfl] at hc
      rw [hc] at h
      cases h
  obtain ⟨t, hrun⟩ := hrun
  cases Session.runEnds_of_run hrun with
  | refused hc hadds =>
    obtain ⟨hout, herr⟩ := runSource_refused hc hadds
    cases (congrArg Prod.fst hc).symm.trans h
    exact ⟨.ofSession 65 t, by rw [runSource, hrun]; rfl, rfl, hout, herr⟩

/-- A run that ends with a static error was refused. -/
theorem refused_of_runSource {read : Reader} {fuel : Nat} {source : String} {ran : Report}
    (h : runSource read fuel source = some ran) (hcode : ran.exitCode = 65) :
    ∃ es, ((Machine.start (hostOf read) {}).compile source).1 = .error es ∧
      ran.stderr = lines (es.map Error.text) := by
  obtain ⟨⟨o, t⟩, hrun, rfl⟩ := Option.map_eq_some_iff.1 h
  cases Session.runEnds_of_run hrun with
  | refused hc hadds => exact ⟨_, congrArg Prod.fst hc, (runSource_refused hc hadds).2⟩
  | ok => cases hcode
  | failed => cases hcode

/-- Though it puts the errors together in its own way, the task finds what reading a text to run it finds. -/
theorem parse_eq_read (source : String) :
    Command.parse source = match (Stmt.read source 0).1 with
      | .ok program => ⟨0, lines (program.map (·.listing)), "", []⟩
      | .error es => ⟨65, "", lines (es.map Error.text), []⟩ := by
  unfold Command.parse Stmt.read
  dsimp only
  obtain ⟨result, next⟩ := Stmt.parse (Item.tokens (Token.scan source)) 0
  cases Item.errors (Token.scan source) with
  | nil => cases result <;> rfl
  | cons e rest =>
    cases result with
    | ok program =>
      dsimp only
      rw [List.append_nil]
      rfl
    | error es => rfl

theorem exitCode_tokenize (json : Bool) (source : String) :
    ((tokenize json source).exitCode = 65 ↔ Unreadable source) ∧
      ((tokenize json source).exitCode = 0 ↔ ¬ Unreadable source) := by
  rw [← Item.errors_ne_nil_iff, tokenize]
  by_cases hclean : Item.errors (Token.scan source) = [] <;> simp [hclean, Outcome.exitCode]

theorem withFile_ok {read : Reader} {path source : String} (h : read path = .ok source)
    (act : String → Option Report) :
    withFile read path act =
      (act source).map fun report => { report with requested := path :: report.requested } := by
  rw [withFile, h]

theorem perform_run {read : Reader} {path source : String} (h : read path = .ok source) (fuel : Nat)
    (stdin : List UInt8) : (Task.run path).perform read fuel stdin = (runSource read fuel source).map
      fun report => { report with requested := path :: report.requested } :=
  withFile_ok h _

/-- The faults of a program that was read are those of its scopes, and their texts are lines. -/
theorem faults_lines {source : String} {program : List Stmt}
    (h : (Stmt.parse (Item.tokens (Token.scan source)) 0).1 = .ok program) :
    ∀ e ∈ (Stmt.eventsAll {} program).filterMap Event.fault?,
      e.origin = .scoping ∧ '\n' ∉ e.text.toList := by
  intro e he
  obtain ⟨event, hevent, hfault⟩ := List.mem_filterMap.1 he
  obtain ⟨t, fault, rfl, ht, hk, hf⟩ :=
    Event.fault?_eq_some hfault (Stmt.allWritten_of_parse h {} event hevent)
  exact ⟨rfl, Error.newline_notMem_text hk (Item.newline_notMem_lexeme ht hk) hf⟩

/-! ## The tasks agree -/

/-- The first task fails exactly if something in the text is no token. The second fails also if the grammar does not
derive the tokens that there are; it then writes what the first has written and after it the errors of the grammar,
and nothing else. The third refuses a text for which the second fails, and writes the same. Any other text that it
refuses has faults of its scopes, which it writes on a line each. -/
theorem tasks_agree {read : Reader} {path source : String} (h : read path = .ok source) (json : Bool)
    (fuel : Nat) (stdin : List UInt8) :
    ∃ tokenized parsed : Report,
      (Task.tokenize path json).perform read fuel stdin = some tokenized ∧
      (Task.parse path).perform read fuel stdin = some parsed ∧
      (tokenized.exitCode = 65 ↔ Unreadable source) ∧
      (tokenized.exitCode = 0 ↔ ¬ Unreadable source) ∧
      (parsed.exitCode = 65 ↔ Unreadable source ∨ Ungrammatical source) ∧
      (parsed.exitCode = 0 ↔ ¬ Unreadable source ∧ ¬ Ungrammatical source) ∧
      tokenized.stderr = lines ((Item.errors (Token.scan source)).map Error.text) ∧
      (∀ e ∈ Item.errors (Token.scan source), e.origin = .lexical) ∧
      (parsed.exitCode = 65 → parsed.stdout = "" ∧
        (∃ syntactic : List Error, parsed.stderr = tokenized.stderr ++ lines (syntactic.map Error.text) ∧
          (∀ e ∈ syntactic, e.origin = .syntactic) ∧ (syntactic ≠ [] ↔ Ungrammatical source)) ∧
        ∃ ran, (Task.run path).perform read fuel stdin = some ran ∧ ran.exitCode = 65 ∧
          ran.stdout = "" ∧ ran.stderr = parsed.stderr) ∧
      (parsed.exitCode = 0 → ∀ ran, (Task.run path).perform read fuel stdin = some ran →
        ran.exitCode = 65 → ∃ program faults,
          (Stmt.parse (Item.tokens (Token.scan source)) 0).1 = .ok program ∧
          faults = (Stmt.eventsAll {} program).filterMap Event.fault? ∧ faults ≠ [] ∧
          ran.stderr = lines (faults.map Error.text) ∧
          ∀ e ∈ faults, e.origin = .scoping ∧ '\n' ∉ e.text.toList) := by
  obtain ⟨hfails, hpasses⟩ := exitCode_tokenize json source
  refine ⟨_, _, withFile_ok h _, withFile_ok h _, hfails, hpasses, ?_⟩
  rcases Stmt.read_eq source 0 with
    ⟨syntactic, hread, horigin, hne, hfaulty⟩ | ⟨program, hread, hparse, hgood, hgood'⟩
  · have hparsed : Command.parse source = ⟨65, "",
        lines ((Item.errors (Token.scan source) ++ syntactic).map Error.text), []⟩ := by
      rw [parse_eq_read, hread]
    rw [hparsed]
    refine ⟨iff_of_true rfl hfaulty, iff_of_false nofun (not_and_or.2 (hfaulty.imp not_not.2 not_not.2)), rfl,
      fun e => Item.origin_of_mem_errors, fun _ => ⟨rfl, ⟨syntactic, ?_, horigin, hne⟩, ?_⟩, nofun⟩
    · rw [List.map_append]
      exact lines_append _ _
    · have hrefused := Machine.compile_of_read_error (m := .start (hostOf read) {}) hread
      obtain ⟨ran, hran, hcode, hout, herr⟩ := runSource_of_refused hrefused fuel
      exact ⟨_, (perform_run h fuel stdin).trans (congrArg _ hran), hcode, hout, herr⟩
  · have hparsed : Command.parse source = ⟨0, lines (program.map (·.listing)), "", []⟩ := by
      rw [parse_eq_read, hread]
    rw [hparsed]
    refine ⟨iff_of_false nofun (not_or.2 ⟨hgood, hgood'⟩), iff_of_true rfl ⟨hgood, hgood'⟩, rfl,
      fun e => Item.origin_of_mem_errors, nofun, fun _ ran hran hcode => ?_⟩
    rw [perform_run h] at hran
    obtain ⟨report, hreport, rfl⟩ := Option.map_eq_some_iff.1 hran
    obtain ⟨es, hc, herr⟩ := refused_of_runSource hreport hcode
    obtain ⟨rfl, hne⟩ := Machine.compile_of_read_ok (m := .start (hostOf read) {}) hread hc
    rw [Stmt.errors_analyse hparse] at hne herr
    exact ⟨program, _, hparse, rfl, hne, herr, faults_lines hparse⟩

/-- A text with something that is no token, and one that is refused for its scopes. -/
def strayFiles : Reader
  | "mark" => .ok "@ var;"
  | "break" => .ok "break;"
  | _ => .error .notFound

theorem errors_strayMark : (Item.errors (Token.scan "@ var;")).length = 1 := by
  cbv

theorem compile_strayBreak :
    (match (Machine.start (hostOf strayFiles) {}).compile "break;" with
      | (.error [.scoping line _ fault], _) => some (line, fault)
      | _ => none) = some (1, .breakOutsideLoop) := by
  cbv

theorem tasks_agree_strayFiles :
    (∃ tokenized parsed ran : Report,
      (Task.tokenize "mark" true).perform strayFiles 0 [] = some tokenized ∧
      (Task.parse "mark").perform strayFiles 0 [] = some parsed ∧
      (Task.run "mark").perform strayFiles 0 [] = some ran ∧
      tokenized.exitCode = 65 ∧ parsed.exitCode = 65 ∧ ran.exitCode = 65 ∧ ran.stderr = parsed.stderr) ∧
    ∃ parsed ran : Report,
      (Task.parse "break").perform strayFiles 0 [] = some parsed ∧
      (Task.run "break").perform strayFiles 0 [] = some ran ∧
      parsed.exitCode = 0 ∧ ran.exitCode = 65 ∧
      ∃ faults : List Error, (∀ e ∈ faults, e.origin = .scoping) ∧
        ran.stderr = lines (faults.map Error.text) := by
  constructor
  · have hfile : strayFiles "mark" = .ok "@ var;" := rfl
    obtain ⟨tokenized, parsed, htokenized, hparsed, hcode, -, hcode', -, -, -, hfails, -⟩ :=
      tasks_agree hfile true 0 []
    have hstray : Unreadable "@ var;" := (Item.errors_ne_nil_iff _).1 fun hnil => by
      have hlength := errors_strayMark
      rw [hnil] at hlength
      cases hlength
    have hparsed65 := hcode'.2 (.inl hstray)
    obtain ⟨-, -, ran, hran, hran65, -, herr⟩ := hfails hparsed65
    exact ⟨tokenized, parsed, ran, htokenized, hparsed, hran, hcode.2 hstray, hparsed65, hran65, herr⟩
  · have hfile : strayFiles "break" = .ok "break;" := rfl
    obtain ⟨-, parsed, -, hparsed, -, -, -, hpassed, -, -, -, hpasses⟩ := tasks_agree hfile true 0 []
    have hcompile := compile_strayBreak
    split at hcompile
    case h_1 line place fault m hc =>
      have hrefused := congrArg Prod.fst hc
      obtain ⟨report, hreport, hcode, -⟩ := runSource_of_refused hrefused 0
      have hran := (perform_run hfile 0 []).trans (congrArg _ hreport)
      have hgood : ¬ Unreadable "break;" ∧ ¬ Ungrammatical "break;" := by
        rcases Stmt.read_eq "break;" 0 with ⟨syntactic, hread, horigin, -⟩ | ⟨-, -, -, hgood⟩
        · have hes := Machine.compile_of_read_error (m := .start (hostOf strayFiles) {}) hread
          have hmem : Error.scoping line place fault ∈ Item.errors (Token.scan "break;") ++ syntactic :=
            Except.error.inj (hrefused.symm.trans hes) ▸ List.mem_singleton_self _
          rcases List.mem_append.1 hmem with hmem | hmem
          · cases Item.origin_of_mem_errors hmem
          · cases horigin _ hmem
        · exact hgood
      have hzero := hpassed.2 hgood
      obtain ⟨_, faults, -, -, -, herr, hfaults⟩ := hpasses hzero _ hran hcode
      exact ⟨parsed, _, hparsed, hran, hzero, hcode, faults, fun e he => (hfaults e he).1, herr⟩
    case h_2 => cases hcompile

end Command
end Lox
