/-!
# The fewest digits that read back

A finite number is a sign and a magnitude `mantissa * 2 ^ exponent`. The reals that round to a
magnitude form an interval, ends included exactly when the mantissa is even. `Magnitude.shortest`
looks for the coarsest decimal grid with a point in that interval and takes the point nearest to
the magnitude. All comparisons are exact, by cross-multiplied naturals.
-/

namespace Lox.Numeral

/-- A finite binary64 number without its sign, `mantissa * 2 ^ exponent`. -/
structure Magnitude where
  mantissa : Nat
  exponent : Int
  /-- The gap to the number below is half the gap to the number above. -/
  narrowBelow : Bool := false
  deriving Repr, DecidableEq

/-- The three forms of binary64 number. -/
inductive Form where
  | nan
  | infinite (negative : Bool)
  | finite (negative : Bool) (magnitude : Magnitude)
  deriving Repr, DecidableEq

def formOf (x : Float) : Form :=
  let bits := x.toBits.toNat
  let negative := decide (Nat.pow 2 63 ≤ bits)
  let biased := bits / Nat.pow 2 52 % Nat.pow 2 11
  let fraction := bits % Nat.pow 2 52
  if biased = 2047 then
    if fraction = 0 then .infinite negative else .nan
  else if biased = 0 then
    .finite negative ⟨fraction, -1074, false⟩
  else
    .finite negative
      ⟨Nat.pow 2 52 + fraction, (biased : Int) - 1075, decide (fraction = 0) && decide (1 < biased)⟩

/-- The value as a natural number, when it is one. -/
def Magnitude.whole? (x : Magnitude) : Option Nat :=
  if 0 ≤ x.exponent then
    some (x.mantissa * Nat.pow 2 x.exponent.toNat)
  else
    let unit := Nat.pow 2 (-x.exponent).toNat
    if x.mantissa % unit = 0 then some (x.mantissa / unit) else none

/-- The decimal `coefficient * 10 ^ scale`. -/
structure Decimal where
  coefficient : Nat
  scale : Int
  deriving Repr, DecidableEq

/-- What becomes of a number halfway between two neighbours. -/
inductive Tie where
  | up
  | toEven
  deriving Repr, DecidableEq

def digitCount (n : Nat) : Nat := (Nat.toDigits 10 n).length

/-- The exponent of the leading decimal digit of a positive magnitude. -/
def Magnitude.leading (x : Magnitude) : Int :=
  let num := x.mantissa * Nat.pow 2 x.exponent.toNat
  let den := Nat.pow 2 (-x.exponent).toNat
  if den ≤ num then
    (digitCount (num / den) : Int) - 1
  else
    -(digitCount ((den + num - 1) / num - 1) : Int)

/-- The point of the grid of multiples of `10 ^ scale` that reads back as `x` and lies nearest to
it, if any does. -/
def Magnitude.onGrid? (tie : Tie) (x : Magnitude) (scale : Int) : Option Nat :=
  let fine := x.exponent - 2
  let num := Nat.pow 2 fine.toNat * Nat.pow 10 (-scale).toNat
  let den := Nat.pow 2 (-fine).toNat * Nat.pow 10 scale.toNat
  let value := 4 * x.mantissa * num
  let low := (if x.narrowBelow then 4 * x.mantissa - 1 else 4 * x.mantissa - 2) * num
  let high := (4 * x.mantissa + 2) * num
  let inside (c : Nat) : Bool :=
    if x.mantissa % 2 = 0 then low ≤ c * den && c * den ≤ high
    else low < c * den && c * den < high
  let below := value / den
  match inside below, inside (below + 1) with
  | false, false => none
  | true, false => some below
  | false, true => some (below + 1)
  | true, true =>
    match compare (2 * (value - below * den)) den with
    | .lt => some below
    | .gt => some (below + 1)
    | .eq =>
      match tie with
      | .up => some (below + 1)
      | .toEven => some (if below % 2 = 0 then below else below + 1)

/-- Moves trailing zeros of the coefficient into the scale. -/
def Decimal.strip : Nat → Decimal → Decimal
  | 0, d => d
  | fuel + 1, d =>
    if d.coefficient ≠ 0 ∧ d.coefficient % 10 = 0 then
      strip fuel ⟨d.coefficient / 10, d.scale + 1⟩
    else d

/-- Tries grids from coarse to fine; seventeen digits always suffice. -/
def Magnitude.search (tie : Tie) (x : Magnitude) : Nat → Int → Decimal
  | 0, scale => ⟨(x.onGrid? tie scale).getD x.mantissa, scale⟩
  | more + 1, scale =>
    match x.onGrid? tie scale with
    | some c => ⟨c, scale⟩
    | none => search tie x more (scale - 1)

def Magnitude.shortest (tie : Tie) (x : Magnitude) : Decimal :=
  if x.mantissa = 0 then ⟨0, 0⟩
  else
    let d := x.search tie 16 x.leading
    d.strip (digitCount d.coefficient)

end Lox.Numeral
