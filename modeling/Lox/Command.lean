/-!
# The command line

Arguments are told apart one by one and then read from left to right; the first that settles the
matter does so. Options may stand before or after the name of the task. What follows `--` is no
option.
-/

namespace Lox.Command

inductive Task where
  | tokenize (path : String) (json : Bool)
  | parse (path : String)
  | run (path : String)
  /-- Runs the lines of the standard input. -/
  | converse
  deriving Repr, DecidableEq

/-- What the arguments ask for. -/
inductive Request where
  | misuse
  | version
  | help
  | perform (task : Task) (log : Option String)
  deriving Repr, DecidableEq

/-! ## Single arguments -/

inductive Arg where
  | log
  | logFile (path : String)
  | json
  | version
  | help
  | word (text : String)
  /-- From here on there are only words. -/
  | onlyWords
  | unknown
  deriving Repr, DecidableEq

def isOption (text : String) : Bool := text.startsWith "-" && text ≠ "-"

def logFileEquals : String := "--log-file="

/-- An argument that needs no other. -/
def Arg.ofString (text : String) : Arg :=
  if text = "--log" then .log
  else if text = "--json" then .json
  else if text = "--version" || text.startsWith "-V" then .version
  else if text = "--help" || text.startsWith "-h" then .help
  else if text.startsWith logFileEquals then
    .logFile (String.ofList (text.toList.drop logFileEquals.length))
  else if isOption text then .unknown
  else .word text

/-- The value of an option may not look like an option. -/
def Arg.ofStrings : List String → List Arg
  | [] => []
  | "--" :: rest => .onlyWords :: rest.map .word
  | ["--log-file"] => [.unknown]
  | "--log-file" :: path :: rest =>
    (if isOption path then .unknown else .logFile path) :: Arg.ofStrings rest
  | text :: rest => Arg.ofString text :: Arg.ofStrings rest

/-! ## Reading -/

/-- The options that may stand anywhere. -/
structure Options where
  log : Bool := false
  logFile : Option String := none
  deriving Repr, DecidableEq

/-- The file that is written to when a log is asked for and none is named. -/
def defaultLog : String := "app.log"

/-- Where to log: after the name of the task counts before what stands before it. -/
def Options.target (outer inner : Options) : Option String :=
  if outer.log || inner.log then some ((inner.logFile <|> outer.logFile).getD defaultLog) else none

/-- Takes an option in, unless it was given already or has no value. -/
def Options.add (o : Options) : Arg → Option Options
  | .log => if o.log then none else some { o with log := true }
  | .logFile path =>
    if o.logFile.isSome || path.isEmpty then none else some { o with logFile := some path }
  | _ => none

inductive TaskName where
  | tokenize | parse | run
  deriving Repr, DecidableEq

def TaskName.ofString? : String → Option TaskName
  | "tokenize" => some .tokenize
  | "parse" => some .parse
  | "run" => some .run
  | _ => none

/-- The arguments of a task as read so far. -/
structure TaskArgs where
  name : TaskName
  path : Option String := none
  json : Bool := false
  options : Options := {}
  deriving Repr, DecidableEq

/-- How far the arguments have been read. -/
inductive Progress where
  /-- No task is named yet; none can be any more if `onlyWords`. -/
  | options (outer : Options) (onlyWords : Bool)
  | task (outer : Options) (args : TaskArgs)
  /-- Help is asked for, perhaps on a topic. -/
  | help (topic : Bool)
  deriving Repr, DecidableEq

def Progress.start : Progress := .options {} false

/-- Reads one argument, or settles the matter. -/
def Progress.read : Progress → Arg → Except Request Progress
  | .options _ _, .version => .error .version
  | .options _ _, .help => .error .help
  | .options outer _, .onlyWords => .ok (.options outer true)
  | .options outer onlyWords, .word text =>
    if onlyWords then .error .misuse
    else if text = "help" then .ok (.help false)
    else
      match TaskName.ofString? text with
      | some name => .ok (.task outer { name := name })
      | none => .error .misuse
  | .options outer onlyWords, arg =>
    match outer.add arg with
    | some outer => .ok (.options outer onlyWords)
    | none => .error .misuse
  | .task _ _, .help => .error .help
  | .task outer args, .onlyWords => .ok (.task outer args)
  | .task outer args, .word path =>
    if args.path.isSome || path.isEmpty then .error .misuse
    else .ok (.task outer { args with path := some path })
  | .task outer args, .json =>
    if args.name = .tokenize && !args.json then .ok (.task outer { args with json := true })
    else .error .misuse
  | .task outer args, arg =>
    match args.options.add arg with
    | some inner => .ok (.task outer { args with options := inner })
    | none => .error .misuse
  | .help topic, .word text =>
    if !topic && (text = "help" || (TaskName.ofString? text).isSome) then .ok (.help true)
    else .error .misuse
  | .help _, _ => .error .misuse

/-- What is asked for when there are no more arguments. Only `run` can do without a path. -/
def Progress.finish : Progress → Request
  | .options outer _ => .perform .converse (outer.target {})
  | .help _ => .help
  | .task outer args =>
    let log := outer.target args.options
    match args.name, args.path with
    | .tokenize, some path => .perform (.tokenize path args.json) log
    | .parse, some path => .perform (.parse path) log
    | .run, some path => .perform (.run path) log
    | .run, none => .perform .converse log
    | _, none => .misuse

def Request.ofArgs (args : List String) : Request :=
  match (Arg.ofStrings args).foldlM Progress.read .start with
  | .ok progress => progress.finish
  | .error request => request

end Lox.Command
