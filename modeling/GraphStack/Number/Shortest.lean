import GraphStack.Number.Double

/-!
# Shortest decimal digits of a double

`Shortest.digits` finds the decimal number with the fewest digits that rounds to a given positive
double. It walks the decimal grids from coarse to fine; on each grid the only candidates are the
two neighbours of the value, and the first grid with a candidate inside the rounding interval
wins. Of two candidates the nearer wins, and an exact tie goes as `Tie` says.
-/

namespace GraphStack.Shortest

inductive Tie
  | even
  | upward
  deriving DecidableEq, Repr

/-- A positive double as `value / unit`, with the ends of the interval of the reals that round to
it over the same unit. -/
structure Interval where
  low : Nat
  value : Nat
  high : Nat
  unit : Nat
  closed : Bool
  deriving Repr

/-- The interval reaches half way to each neighbour. Below a power of two the lower neighbour is
only half as far away. The ends round to an even mantissa. -/
def Interval.of (mantissa : Nat) (exponent : Int) : Interval :=
  let scale := twoTo (exponent - 2).toNat
  let lower := if mantissa = Double.fractionWeight ∧ exponent ≠ -1074 then 1 else 2
  { low := (4 * mantissa - lower) * scale
    value := 4 * mantissa * scale
    high := (4 * mantissa + 2) * scale
    unit := twoTo (2 - exponent).toNat
    closed := mantissa % 2 = 0 }

def Interval.contains (i : Interval) (count : Nat) (power : Int) : Bool :=
  let point := count * tenTo power.toNat * i.unit
  let grain := tenTo (-power).toNat
  if i.closed then i.low * grain ≤ point && point ≤ i.high * grain
  else i.low * grain < point && point < i.high * grain

def Interval.below (i : Interval) (power : Int) : Nat :=
  i.value * tenTo (-power).toNat / (i.unit * tenTo power.toNat)

def Interval.prefersUpper (i : Interval) (tie : Tie) (count : Nat) (power : Int) : Bool :=
  let middle := (2 * count + 1) * tenTo power.toNat * i.unit
  let twice := 2 * i.value * tenTo (-power).toNat
  if middle = twice then
    match tie with
    | .even => count % 2 = 1
    | .upward => true
  else middle < twice

def Interval.pick? (i : Interval) (tie : Tie) (power : Int) : Option Nat :=
  let count := i.below power
  match i.contains count power, i.contains (count + 1) power with
  | true, true => some (if i.prefersUpper tie count power then count + 1 else count)
  | true, false => some count
  | false, true => some (count + 1)
  | false, false => none

def Interval.search (i : Interval) (tie : Tie) : Nat → Int → Nat × Int
  | 0, power => (i.below power, power)
  | steps + 1, power =>
    match i.pick? tie power with
    | some count => (count, power)
    | none => i.search tie steps (power - 1)

/-- A power of ten above `mantissa · 2 ^ exponent`, by at most a factor of a hundred. -/
def topPower (mantissa : Nat) (exponent : Int) : Int :=
  ((mantissa.log2 : Int) + exponent + 1) * 30103 / 100000 + 1

/-- Digits and power of ten; seventeen digits always suffice, and the grid above them all is at
most three powers away from the first of them. -/
def digits (tie : Tie) (mantissa : Nat) (exponent : Int) : Nat × Int :=
  (Interval.of mantissa exponent).search tie 24 (topPower mantissa exponent)

end GraphStack.Shortest
