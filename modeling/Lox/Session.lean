import Lox.Evaluation

/-!
# Sessions

A session runs one text after another on one machine. It keeps the errors and warnings of all of
them until it is reset, and writes each as a line to its diagnostics, which may refuse it without
consequence.
-/

namespace Lox

inductive Outcome where
  | ok
  | staticError
  | runtimeError
  deriving Repr, DecidableEq

def Outcome.exitCode : Outcome → Nat
  | ok => 0
  | staticError => 65
  | runtimeError => 70

structure Session where
  machine : Machine
  diagnostics : Sink := {}
  errors : List Error := []
  warnings : List Warning := []

namespace Session

def start (host : Host) (output diagnostics : Sink) : Session where
  machine := .start host output
  diagnostics := diagnostics

def emit (line : String) (s : Session) : Session :=
  { s with diagnostics := (s.diagnostics.write (line ++ "\n")).2 }

def addError (s : Session) (e : Error) : Session :=
  { s.emit e.text with errors := s.errors ++ [e] }

def addWarning (s : Session) (w : Warning) : Session :=
  { s.emit w.text with warnings := s.warnings ++ [w] }

/-- Reports the warnings that the machine has queued. -/
def reportQueued (s : Session) : Session :=
  let (queued, machine) := s.machine.takeWarnings
  queued.foldl addWarning { s with machine := machine }

/-- Runs a text. There is no outcome if the run went deeper than `fuel`. -/
def run (host : Host) (fuel : Nat) (source : String) (s : Session) : Option (Outcome × Session) :=
  match s.machine.compile source with
  | (.error es, m) => some (.staticError, es.foldl addError { s with machine := m })
  | (.ok (program, warnings), m) =>
    let s := warnings.foldl addWarning { s with machine := m }
    match interpret host fuel program s.machine with
    | .ok () m => some (.ok, { s with machine := m }.reportQueued)
    | .error (.failed e) m => some (.runtimeError, ({ s with machine := m }.reportQueued).addError e)
    | .error .exhausted _ => none

/-- Forgets errors and warnings, and nothing else. -/
def reset (s : Session) : Session := { s with errors := [], warnings := [] }

end Session
end Lox
