import Lox.Numeral.Shortest

/-!
# Texts of numbers

Four texts are in use. `plain` writes the shortest digits and never an exponent. `display` is the
text of a printed value, `listing` that of a literal in a program listing, `literal` that of a
number token, and `json` that of a number in JSON.
-/

namespace Lox.Numeral

def zeros (n : Nat) : String := String.ofList (List.replicate n '0')

/-- The digits of a decimal without an exponent, and a fraction only if there is one. -/
def Decimal.positional (d : Decimal) : String :=
  let digits := Nat.toDigits 10 d.coefficient
  if 0 ≤ d.scale then
    String.ofList digits ++ (if d.coefficient = 0 then "" else zeros d.scale.toNat)
  else
    let places := (-d.scale).toNat
    if places < digits.length then
      String.ofList (digits.take (digits.length - places)) ++ "." ++
        String.ofList (digits.drop (digits.length - places))
    else
      "0." ++ zeros (places - digits.length) ++ String.ofList digits

def signed (negative : Bool) (text : String) : String :=
  if negative then "-" ++ text else text

def infinite (negative : Bool) : String := signed negative "inf"

/-- Shortest digits, a tie going up, never an exponent. -/
def plain (x : Float) : String :=
  match formOf x with
  | .nan => "NaN"
  | .infinite negative => infinite negative
  | .finite negative m => signed negative (m.shortest .up).positional

/-- A whole number has all its digits; any other number is `plain`. -/
def display (x : Float) : String :=
  match formOf x with
  | .finite negative m =>
    match m.whole? with
    | some n => signed negative (Nat.repr n)
    | none => plain x
  | _ => plain x

/-- A whole number has all its digits and one decimal; any other number is `plain`. -/
def listing (x : Float) : String :=
  match formOf x with
  | .finite negative m =>
    match m.whole? with
    | some n => signed negative (Nat.repr n) ++ ".0"
    | none => plain x
  | _ => plain x

/-- A whole number that fits in 63 bits has all its digits and one decimal, and zero has no sign;
any other number is `plain`. -/
def literal (x : Float) : String :=
  match formOf x with
  | .finite negative m =>
    match m.whole? with
    | some n =>
      if n < Nat.pow 2 63 then signed (negative && n ≠ 0) (Nat.repr n) ++ ".0" else plain x
    | none => plain x
  | _ => plain x

/-- The digits of a decimal for JSON: from `0.00001` up to below `10 ^ 16` with a fraction and no
exponent, otherwise one digit before the point and a signed exponent. -/
def Decimal.json (d : Decimal) : String :=
  let digits := Nat.toDigits 10 d.coefficient
  let leading := d.scale + digits.length - 1
  if -5 ≤ leading ∧ leading < 16 then
    if 0 ≤ d.scale then d.positional ++ ".0" else d.positional
  else
    let fraction := digits.drop 1
    String.ofList (digits.take 1) ++
      (if fraction.isEmpty then "" else "." ++ String.ofList fraction) ++
      (if 0 ≤ leading then "e+" else "e-") ++ Nat.repr leading.natAbs

/-- Shortest digits, a tie going to the even neighbour; what is no finite number is `null`. -/
def json (x : Float) : String :=
  match formOf x with
  | .finite negative m => signed negative (m.shortest .toEven).json
  | _ => "null"

end Lox.Numeral
