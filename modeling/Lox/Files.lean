import Lox.Diagnostic
import Lox.Table

/-!
# Files

A working directory: what stands at each path below it. A path is followed step by step, and
nothing outside the directory is known by name.
-/

namespace Lox

inductive Entry where
  | file (bytes : ByteArray)
  | directory

/-- The entries below the working directory, by the names on the way to them. -/
structure Files where
  entries : List (List String × Entry) := []

namespace Files

/-- A place that a path has led to. -/
inductive Location where
  | inside (steps : List String)
  | outside

/-- The working directory itself has no steps. -/
def at? (fs : Files) (steps : List String) : Option Entry :=
  if steps.isEmpty then some .directory else (fs.entries.find? (·.1 == steps)).map (·.2)

/-- The most bytes that a name can have. -/
def maxName : Nat := 255

/-- The most bytes that a path can have. -/
def maxPath : Nat := 4095

/-- What is wrong with a path wherever it leads. -/
def pathFault? (path : String) : Option IoFault :=
  if path.toList.contains '\x00' then some .nulInPath
  else if path.isEmpty then some .notFound
  else if maxPath < path.utf8ByteSize then some .nameTooLong
  else none

/-- Names that lead to a directory that is there already. -/
def isDots (name : String) : Bool := name = "" || name = "." || name = ".."

/-- One step on from a directory. -/
def step (fs : Files) (here : Location) (name : String) : Except IoFault Location :=
  match here with
  | .outside =>
    if isDots name then .ok .outside
    else if maxName < name.utf8ByteSize then .error .nameTooLong
    else .error .notFound
  | .inside steps =>
    match fs.at? steps with
    | some .directory =>
      if isDots name then
        if name ≠ ".." then .ok here
        else .ok (if steps.isEmpty then .outside else .inside steps.dropLast)
      else if maxName < name.utf8ByteSize then .error .nameTooLong
      else
        match fs.at? (steps ++ [name]) with
        | some _ => .ok (.inside (steps ++ [name]))
        | none => .error .notFound
    | some (.file _) => .error .notDirectory
    | none => .error .notFound

def follow (fs : Files) : Location → List String → Except IoFault Location
  | here, [] => .ok here
  | here, name :: rest =>
    match fs.step here name with
    | .ok there => fs.follow there rest
    | .error e => .error e

/-- Where a path starts, and the names it goes through. -/
def parts (path : String) : Location × List String :=
  match path.splitOn "/" with
  | "" :: rest => (.outside, rest)
  | names => (.inside [], names)

def locate (fs : Files) (path : String) : Except IoFault Location :=
  match pathFault? path with
  | some fault => .error fault
  | none =>
    let (start, names) := parts path
    fs.follow start names

/-- The text of a file. -/
def read (fs : Files) (path : String) : Except IoFault String :=
  match fs.locate path with
  | .error e => .error e
  | .ok .outside => .error .isDirectory
  | .ok (.inside steps) =>
    match fs.at? steps with
    | some (.file bytes) =>
      match String.fromUTF8? bytes with
      | some text => .ok text
      | none => .error .notUtf8
    | _ => .error .isDirectory

def put (fs : Files) (steps : List String) (entry : Entry) : Files :=
  ⟨(fs.entries.filter (·.1 != steps)) ++ [(steps, entry)]⟩

/-- The directories on the way to the end of a path. -/
def parents : List String → List (List String)
  | [] => []
  | [_] => []
  | name :: rest => [name] :: (parents rest).map (name :: ·)

/-- Puts an entry at a path, with the directories on the way to it. -/
def write (fs : Files) (path : String) (entry : Entry) : Files :=
  let steps := (path.splitOn "/").filter fun name => name ≠ "" && name ≠ "."
  let made := (parents steps).foldl
    (fun fs dir => if (fs.at? dir).isSome then fs else fs.put dir .directory) fs
  made.put steps entry

/-- Puts an empty file at a path that leads to nothing, `fault` being why. The directory must exist.
A path that ends in a slash can only name a directory, and a file made outside is not seen from
within. -/
def createNew (fs : Files) (path : String) (fault : IoFault) : Except IoFault Files :=
  let (start, names) := parts path
  match names.reverse.dropWhile (·.isEmpty) with
  | [] => .error fault
  | name :: before =>
    match fs.follow start (before.reverse ++ ["."]) with
    | .error e => .error e
    | .ok here =>
      if path.endsWith "/" then .error .isDirectory
      else if fault ≠ .notFound then .error fault
      else
        match here with
        | .inside steps => .ok (fs.put (steps ++ [name]) (.file .empty))
        | .outside => .ok fs

/-- Makes an empty file, or empties the one that is there. -/
def create (fs : Files) (path : String) : Except IoFault Files :=
  match pathFault? path with
  | some fault => .error fault
  | none =>
    match fs.locate path with
    | .error fault => fs.createNew path fault
    | .ok .outside => .error .isDirectory
    | .ok (.inside steps) =>
      match fs.at? steps with
      | some (.file _) => .ok (fs.put steps (.file .empty))
      | _ => .error .isDirectory

/-- The names in the working directory, by code points. -/
def listing (fs : Files) : List String :=
  let names := fs.entries.filterMap fun
    | ([name], _) => some name
    | _ => none
  names.mergeSort (fun a b => !decide (b < a))

end Files
end Lox
