import Lox.Machine
import Lox.Text.Quoted

/-!
# Details of values

What a host may ask about a value beyond its text: built-in functions, functions and objects show
their parts.
-/

namespace Lox

/-- A name and its fields, as `Name { field: text, ... }`. -/
def record (name : String) (fields : List (String × String)) : String :=
  name ++ " \x7b " ++
    String.intercalate ", " (fields.map fun (field, text) => field ++ ": " ++ text) ++ " \x7d"

def quotedList (names : List String) : String :=
  "[" ++ String.intercalate ", " (names.map Text.quoted) ++ "]"

def Native.details (f : Native) : String :=
  record "NativeFunction" [("name", Text.quoted f.name), ("arity", Nat.repr f.arity)]

def Closure.details (f : Closure) : String :=
  record "LoxFunction" [("name", Text.quoted f.name), ("arity", Nat.repr f.arity),
    ("is_initializer", if f.isInitializer then "true" else "false")]

def Machine.objectDetails (m : Machine) (id : Nat) (c : Class) : String :=
  record "LoxInstance" [("class", Text.quoted c.name),
    ("fields", quotedList (m.fields id).sortedNames)]

def Machine.details? (m : Machine) : Value → Option String
  | .native f => some f.details
  | .function _ f => some f.details
  | .object id c => some (m.objectDetails id c)
  | _ => none

end Lox
