import Lox.Command
import Lox.Files
import Lox.Program.Listing
import Lox.Session
import Lox.Text.Backspace
import Lox.Text.Quoted
import Lox.Token.Text

/-!
# Performing a task

What a task writes, and the code it ends with. Files are read through a function of their path, so
that a task can be performed on any store of files; `Command.perform` performs the arguments of the
program in a working directory.
-/

namespace Lox.Command

abbrev Reader := String → Except IoFault String

structure Report where
  exitCode : Nat
  stdout : String := ""
  stderr : String := ""
  /-- The files that were read or asked for. -/
  requested : List String := []

def noInput : Nat := 66

def lines (texts : List String) : String := String.join (texts.map (· ++ "\n"))

/-- The report on a file, or on its absence. -/
def withFile (read : Reader) (path : String) (act : String → Option Report) : Option Report :=
  match read path with
  | .ok source =>
    (act source).map fun report => { report with requested := path :: report.requested }
  | .error fault => some {
      exitCode := noInput
      stderr := "Failed to read file " ++ Text.quoted path ++ ": " ++ fault.message ++ "\n"
      requested := [path] }

def tokenize (json : Bool) (source : String) : Report :=
  let items := Token.scan source
  let errors := Item.errors items
  { exitCode := if errors.isEmpty then 0 else Outcome.staticError.exitCode
    stdout := lines ((Item.tokens items).map fun t => if json then t.json else t.text)
    stderr := lines (errors.map (·.text)) }

/-- The listing of a program that has no fault, or else what was wrong with its characters and after that with its
tokens. Nothing is analysed or run. -/
def parse (source : String) : Report :=
  let items := Token.scan source
  match (Stmt.parse (Item.tokens items) 0).1, Item.errors items with
  | .ok program, [] => { exitCode := 0, stdout := lines (program.map (·.listing)) }
  | result, errors =>
    let syntactic := match result with
      | .ok _ => []
      | .error es => es
    { exitCode := Outcome.staticError.exitCode, stderr := lines ((errors ++ syntactic).map (·.text)) }

def hostOf (read : Reader) : Host := { read := read, loader := .files }

def Report.ofSession (exitCode : Nat) (s : Session) : Report where
  exitCode := exitCode
  stdout := s.machine.output.text
  stderr := s.diagnostics.text
  requested := s.machine.requested

def runSource (read : Reader) (fuel : Nat) (source : String) : Option Report :=
  let host := hostOf read
  ((Session.start host {} {}).run host fuel source).map fun (outcome, s) =>
    .ofSession outcome.exitCode s

/-- Splits bytes at line ends. A carriage return before a line end belongs to it; after the last
line there may be none. -/
def splitLines : List UInt8 → List (List UInt8)
  | [] => []
  | b :: rest =>
    if b = 10 then [] :: splitLines rest
    else
      match rest, splitLines rest with
      | 10 :: _, line :: more => (if b = 13 then line else b :: line) :: more
      | _, line :: more => (b :: line) :: more
      | _, [] => [[b]]

def badLine : String :=
  "Error: Failed to read line\n\nCaused by:\n    0: " ++ IoFault.notUtf8.message ++ "\n    1: " ++
    IoFault.notUtf8.message ++ "\n"

/-- The text of a typed line, if it is text. -/
def lineText? (line : List UInt8) : Option String :=
  (String.fromUTF8? ⟨line.toArray⟩).map Text.withoutBackspaces

/-- Runs line after line in one session, up to a line that is no text. -/
def converse (host : Host) (fuel : Nat) : Session → List (List UInt8) → Option Report
  | s, [] => some (.ofSession 0 s)
  | s, line :: rest =>
    match lineText? line with
    | none =>
      let report := Report.ofSession 1 s
      some { report with stderr := report.stderr ++ badLine }
    | some source =>
      match s.run host fuel source with
      | some (_, s) => converse host fuel s.reset rest
      | none => none

def Task.perform (task : Task) (read : Reader) (fuel : Nat) (stdin : List UInt8) : Option Report :=
  match task with
  | .tokenize path json => withFile read path fun source => some (Command.tokenize json source)
  | .parse path => withFile read path fun source => some (Command.parse source)
  | .run path => withFile read path (runSource read fuel)
  | .converse =>
    let host := hostOf read
    Command.converse host fuel (.start host {} {}) (splitLines stdin)

def versionText : String := "rox 0.1.0\n"

def misuseCode : Nat := 2

/-- The report on a log file that cannot be made. -/
def noLog (path : String) (fault : IoFault) : Report where
  exitCode := 1
  stderr := "Error: Failed to create " ++ Text.quoted path ++ "\n\nCaused by:\n    " ++
    fault.message ++ "\n"

/-- Performs what the arguments ask for, and gives the working directory after it. A log file is
made before anything else is done. -/
def perform (args : List String) (files : Files) (fuel : Nat) (stdin : List UInt8) :
    Option (Report × Files) :=
  match Request.ofArgs args with
  | .misuse => some ({ exitCode := misuseCode }, files)
  | .version => some ({ exitCode := 0, stdout := versionText }, files)
  | .help => some ({ exitCode := 0 }, files)
  | .perform task none => (task.perform files.read fuel stdin).map (·, files)
  | .perform task (some log) =>
    match files.create log with
    | .error fault => some (noLog log fault, files)
    | .ok files => (task.perform files.read fuel stdin).map (·, files)

end Lox.Command
