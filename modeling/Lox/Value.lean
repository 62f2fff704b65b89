import Lox.Numeral.Layout
import Lox.Program
import Lox.Table

/-!
# Values

Numbers, strings, truth values and nil are what they are. Functions, classes and objects have an
identity besides, and are equal only to themselves. A class never changes once it is made, so it
holds its superclass; what changes, the variables of a frame and the fields of an object, is kept
elsewhere under its number.
-/

namespace Lox

/-- The frames in which a name is looked up, innermost first. -/
abbrev Env := List Nat

/-- A routine with the environment it was declared in. -/
structure Closure where
  decl : Routine
  env : Env
  isInitializer : Bool

structure Class where
  id : Nat
  name : String
  superclass : Option Class
  methods : Table Closure

/-- What a built-in function does: read the clock, or what the host has in that slot. -/
inductive NativeCode where
  | clock
  | host (slot : Nat)
  deriving Repr, DecidableEq

structure Native where
  name : String
  arity : Nat
  code : NativeCode
  deriving Repr, DecidableEq

inductive Value where
  | nil
  | bool (b : Bool)
  | number (x : Float)
  | string (s : String)
  | native (f : Native)
  | function (id : Nat) (f : Closure)
  | classDef (c : Class)
  | object (id : Nat) (c : Class)

/-- The class's own method of that name, or the nearest one that it inherits. -/
def Class.findMethod : Class → String → Option Closure
  | ⟨_, _, superclass, methods⟩, name =>
    match methods.get? name with
    | some m => some m
    | none =>
      match superclass with
      | some parent => parent.findMethod name
      | none => none

def Closure.arity (f : Closure) : Nat := f.decl.arity

def Closure.name (f : Closure) : String := f.decl.name.lexeme

def initName : String := "init"

def Class.initializer? (c : Class) : Option Closure := c.findMethod initName

/-- A class takes the arguments of its initializer. -/
def Class.arity (c : Class) : Nat :=
  match c.initializer? with
  | some f => f.arity
  | none => 0

namespace Value

def ofLiteral : Literal → Value
  | .nil => nil
  | .bool b => bool b
  | .number x => number x
  | .string s => string s

/-- Everything but `nil` and `false` counts as true. -/
def truthy : Value → Bool
  | nil => false
  | bool b => b
  | _ => true

/-- Equality as the language sees it: numbers as numbers, what has an identity by that. -/
def equal : Value → Value → Bool
  | nil, nil => true
  | bool b, bool c => b == c
  | number x, number y => x == y
  | string s, string t => s == t
  | native f, native g => f.code == g.code
  | function i _, function j _ => i == j
  | classDef c, classDef d => c.id == d.id
  | object i _, object j _ => i == j
  | _, _ => false

/-- The text that `print` writes. -/
def text : Value → String
  | nil => "nil"
  | bool true => "true"
  | bool false => "false"
  | number x => Numeral.display x
  | string s => s
  | native f => "<native fn " ++ f.name ++ ">"
  | function _ f => "<fn " ++ f.name ++ ">"
  | classDef c => "<class " ++ c.name ++ ">"
  | object _ c => "<instance " ++ c.name ++ ">"

/-- The name and the number of arguments of what can be called. -/
def callable? : Value → Option (String × Nat)
  | native f => some (f.name, f.arity)
  | function _ f => some (f.name, f.arity)
  | classDef c => some (c.name, c.arity)
  | _ => none

end Value
end Lox
