/-!
# Runs of characters

A class of characters by the lengths of runs of codes. The runs follow each other from code 0 on, by turns outside the
class and in it.
-/

namespace Lox.Text

abbrev Runs := List Nat

namespace Runs

/-- Whether code `n` is in the class, if the first run is (`inside`) or is not. -/
def hasFrom (inside : Bool) : Runs → Nat → Bool
  | [], _ => false
  | length :: rest, n => if n < length then inside else hasFrom (!inside) rest (n - length)

def has (runs : Runs) (n : Nat) : Bool := runs.hasFrom false n

end Runs
end Lox.Text
