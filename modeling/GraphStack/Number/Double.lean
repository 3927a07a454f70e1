import GraphStack.Number.Power

/-!
# Doubles as bit patterns

A number of the stack is an IEEE 754 double, kept as its 64 bits. `Double.reading` gives the exact
value `± mantissa · 2 ^ exponent`, `Double.nearest` rounds a quotient of naturals to the nearest
double with ties to the even mantissa, and `Double.same` is IEEE equality: a NaN differs from
itself and the two zeros agree.
-/

namespace GraphStack

structure Double where
  bits : UInt64
  deriving DecidableEq, Inhabited, Repr

namespace Double

inductive Reading
  | finite (negative : Bool) (mantissa : Nat) (exponent : Int)
  | infinite (negative : Bool)
  | nan
  deriving DecidableEq, Repr

def signWeight : Nat := twoTo 63

def fractionWeight : Nat := twoTo 52

def topField : Nat := 2047

def negative (x : Double) : Bool := signWeight ≤ x.bits.toNat

def field (x : Double) : Nat := x.bits.toNat / fractionWeight % 2048

def fraction (x : Double) : Nat := x.bits.toNat % fractionWeight

def reading (x : Double) : Reading :=
  if x.field = topField then
    if x.fraction = 0 then .infinite x.negative else .nan
  else if x.field = 0 then
    .finite x.negative x.fraction (-1074)
  else
    .finite x.negative (fractionWeight + x.fraction) (x.field - 1075)

def isNaN (x : Double) : Bool := x.field = topField && x.fraction != 0

def isFinite (x : Double) : Bool := x.field != topField

def isZero (x : Double) : Bool := x.bits.toNat % signWeight = 0

def same (x y : Double) : Bool :=
  !x.isNaN && !y.isNaN && (x.bits == y.bits || (x.isZero && y.isZero))

/-- The double with this sign and these low 63 bits. -/
def ofMagnitude (negative : Bool) (magnitude : Nat) : Double :=
  ⟨.ofNat ((if negative then signWeight else 0) + magnitude)⟩

def infinity (negative : Bool) : Double := ofMagnitude negative (topField * fractionWeight)

/-- The quotient rounded to the nearest natural, a half to the even one. -/
def roundedQuotient (num den : Nat) : Nat :=
  let q := num / den
  let r := 2 * (num % den)
  if r < den then q
  else if den < r then q + 1
  else q + q % 2

/-- The greatest `e` with `2 ^ e ≤ num / den`, for positive `num` and `den`. -/
def binaryOrder (num den : Nat) : Int :=
  let e : Int := (num.log2 : Int) - den.log2
  if num * twoTo (-e).toNat < den * twoTo e.toNat then e - 1 else e

/-- The double nearest to `num / den` in magnitude; the mantissa and the exponent's field add up to
the magnitude bits, so a mantissa that rounds up to the next power of two carries by itself. -/
def nearest (negative : Bool) (num den : Nat) : Double :=
  if num = 0 then ofMagnitude negative 0
  else
    let q : Int := max (binaryOrder num den - 52) (-1074)
    let mantissa := roundedQuotient (num * twoTo (-q).toNat) (den * twoTo q.toNat)
    let magnitude := (q + 1074).toNat * fractionWeight + mantissa
    ofMagnitude negative (min magnitude (topField * fractionWeight))

def ofNat (n : Nat) : Double := nearest false n 1

def ofInt (k : Int) : Double := nearest (k < 0) k.natAbs 1

def toInt? (x : Double) : Option Int :=
  match x.reading with
  | .finite negative m q =>
    let magnitude? :=
      if 0 ≤ q then some (m * twoTo q.toNat)
      else if m % twoTo (-q).toNat = 0 then some (m / twoTo (-q).toNat)
      else none
    magnitude?.map fun n => if negative then -(n : Int) else n
  | _ => none

def neg (x : Double) : Double := ofMagnitude (!x.negative) (x.bits.toNat % signWeight)

/-- The product of two doubles that are finite and not negative, rounded once. -/
def mulMagnitude (x y : Double) : Double :=
  match x.reading, y.reading with
  | .finite _ m q, .finite _ n r =>
    nearest false (m * n * twoTo (q + r).toNat) (twoTo (-(q + r)).toNat)
  | _, _ => infinity false

def divMagnitude (x y : Double) : Double :=
  match x.reading, y.reading with
  | .finite _ m q, .finite _ n r =>
    if n = 0 then infinity false
    else nearest false (m * twoTo (q - r).toNat) (n * twoTo (r - q).toNat)
  | _, _ => infinity false

end Double
end GraphStack
