import Lox.Command.Report

/-!
# The program

Reads arguments, files and lines, has the task performed, and writes what it reports. A task sees
only files that were read before it began, so one that asks for another is begun again with that
file read too. Nothing is written until a task has all its files.
-/

namespace Lox.Main

/-- What reading a file gave, by path. -/
abbrev Known := List (String × Except IoFault String)

def reader (known : Known) : Command.Reader := fun path => (known.lookup path).getD (.error .notFound)

/-- More steps than a program can take. -/
def fuel : Nat := Nat.pow 2 60

def faultOf : IO.Error → IoFault
  | .noFileOrDirectory .. => .notFound
  | .inappropriateType _ _ details =>
    if details.toLower = "not a directory" then .notDirectory else .isDirectory
  | .invalidArgument _ _ details =>
    if details.toLower.endsWith "name too long" then .nameTooLong else .custom details
  | e => .custom (toString e)

/-- What reading or making a file gives, if its path is good for either. -/
def attempt {α : Type} (path : String) (act : IO (Except IoFault α)) : IO (Except IoFault α) := do
  match Files.pathFault? path with
  | some fault => return .error fault
  | none => try act catch e => return .error (faultOf e)

def readFile (path : String) : IO (Except IoFault String) :=
  attempt path do
    match String.fromUTF8? (← IO.FS.readBinFile path) with
    | some text => return .ok text
    | none => return .error .notUtf8

def createFile (path : String) : IO (Except IoFault Unit) :=
  attempt path do
    IO.FS.writeFile path ""
    return .ok ()

/-- The files asked for that are not known yet. -/
def missing (known : Known) (requested : List String) : List String :=
  requested.filter fun path => (known.lookup path).isNone

def learn (known : Known) (paths : List String) : IO Known :=
  paths.foldlM (fun known path => do return (path, ← readFile path) :: known) known

def finish (report : Command.Report) : IO UInt32 := do
  (← IO.getStdout).putStr report.stdout
  (← IO.getStderr).putStr report.stderr
  return report.exitCode.toUInt32

partial def perform (task : Command.Task) (known : Known) : IO UInt32 := do
  match task.perform (reader known) fuel [] with
  | none => finish { exitCode := Outcome.runtimeError.exitCode }
  | some report =>
    match missing known report.requested with
    | [] => finish report
    | paths => perform task (← learn known paths)

/-- Runs one line, begun again for as long as it asks for files. -/
partial def runLine (s : Session) (source : String) (known : Known) : IO (Option Session) := do
  match s.run (Command.hostOf (reader known)) fuel source with
  | none => return none
  | some (_, after) =>
    match missing known after.machine.requested with
    | [] => return some after
    | paths => runLine s source (← learn known paths)

/-- Writes what a line has left in the session, which is then as before but for its effects. -/
def settle (s : Session) : IO Session := do
  let (out, output) := s.machine.output.drain
  let (err, diagnostics) := s.diagnostics.drain
  (← IO.getStdout).putStr out
  (← IO.getStdout).flush
  (← IO.getStderr).putStr err
  return { s with
    machine := { s.machine with output := output, requested := [] }
    diagnostics := diagnostics }.reset

/-- The bytes up to a line end, which is among them, or up to the end. -/
partial def readLine (input : IO.FS.Stream) (line : List UInt8) : IO (List UInt8) := do
  match (← input.read 1).toList with
  | [] => return line.reverse
  | byte :: _ => if byte = 10 then return (byte :: line).reverse else readLine input (byte :: line)

partial def converse (s : Session) : IO UInt32 := do
  match Command.splitLines (← readLine (← IO.getStdin) []) with
  | [] => return 0
  | line :: _ =>
    match Command.lineText? line with
    | none => finish { exitCode := 1, stderr := Command.badLine }
    | some source =>
      match ← runLine s source [] with
      | some s => converse (← settle s)
      | none => finish { exitCode := Outcome.runtimeError.exitCode }

def start (task : Command.Task) : IO UInt32 :=
  match task with
  | .converse => converse (.start (Command.hostOf (reader [])) {} {})
  | task => perform task []

def startLogged (task : Command.Task) (log : String) : IO UInt32 := do
  match ← createFile log with
  | .error fault => finish (Command.noLog log fault)
  | .ok () => start task

end Lox.Main

def main (args : List String) : IO UInt32 :=
  match Lox.Command.Request.ofArgs args with
  | .misuse => Lox.Main.finish { exitCode := Lox.Command.misuseCode }
  | .version => Lox.Main.finish { exitCode := 0, stdout := Lox.Command.versionText }
  | .help => Lox.Main.finish { exitCode := 0 }
  | .perform task none => Lox.Main.start task
  | .perform task (some log) => Lox.Main.startLogged task log
