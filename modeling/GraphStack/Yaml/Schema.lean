import GraphStack.Reading.Mismatch
import GraphStack.Text.Hexadecimal
import GraphStack.Yaml.Event

/-!
# What scalars mean

A plain scalar without a tag is the null value, a boolean, an integer, a float or a text, by its
spelling. Integers may be hexadecimal, octal or binary and fit 128 bits; a number with needless
leading zeros is a text, and so is a float too large for a double.
-/

namespace GraphStack.Yaml

def isNull (text : String) : Bool := ["null", "Null", "NULL", "~"].contains text

def boolean? (text : String) : Option Bool :=
  if ["true", "True", "TRUE"].contains text then some true
  else if ["false", "False", "FALSE"].contains text then some false
  else none

def digitsValue? (radix : Nat) (cs : List Char) : Option Nat :=
  if cs.isEmpty then none
  else cs.foldlM (fun n c => ((Text.hexValue? c).filter (· < radix)).map (radix * n + ·)) 0

def dropPlus : List Char → List Char
  | '+' :: cs => cs
  | cs => cs

def dropSign : List Char → List Char
  | '+' :: cs => cs
  | '-' :: cs => cs
  | cs => cs

def hasLeadingZero (cs : List Char) : Bool :=
  match dropSign cs with
  | '0' :: d :: ds => (d :: ds).all Char.isDigit
  | _ => false

def magnitude? : List Char → Option Nat
  | '0' :: 'x' :: cs => digitsValue? 16 cs
  | '0' :: 'o' :: cs => digitsValue? 8 cs
  | '0' :: 'b' :: cs => digitsValue? 2 cs
  | cs => if hasLeadingZero cs then none else digitsValue? 10 cs

def natural? (text : String) : Option Nat := magnitude? (dropPlus text.toList)

/-- The integer that a text spells, if 128 bits hold it. -/
def integer? (text : String) : Option Int :=
  match text.toList with
  | '-' :: cs => ((magnitude? cs).filter (· ≤ twoTo 127)).map fun n => -(n : Int)
  | _ => ((natural? text).filter (· < twoTo 128)).map fun n => (n : Int)

def exponent? : List Char → Option Int
  | [] => some 0
  | c :: cs =>
    if c = 'e' ∨ c = 'E' then
      match cs with
      | '-' :: ds => (digitsValue? 10 ds).map fun n => -(n : Int)
      | _ => (digitsValue? 10 (dropPlus cs)).map fun n => (n : Int)
    else none

/-- The double nearest to `digits · 10 ^ power`, unless that is beyond all doubles. Powers far from
the range of the doubles are not computed. -/
def scaled? (negative : Bool) (digits : Nat) (power : Int) : Option Double :=
  let order := power + (toString digits).length
  if digits = 0 ∨ order < -400 then some (.ofMagnitude negative 0)
  else if 400 < order then none
  else
    let x := Double.nearest negative (digits * tenTo power.toNat) (tenTo (-power).toNat)
    if x.isFinite then some x else none

/-- A decimal number without its sign: digits with an optional point and an optional exponent. -/
def decimal? (negative : Bool) (cs : List Char) : Option Double :=
  let whole := cs.takeWhile Char.isDigit
  let rest := cs.dropWhile Char.isDigit
  let (part, rest) := match rest with
    | '.' :: rest => (rest.takeWhile Char.isDigit, rest.dropWhile Char.isDigit)
    | rest => ([], rest)
  match digitsValue? 10 (whole ++ part), exponent? rest with
  | some digits, some power => scaled? negative digits (power - part.length)
  | _, _ => none

def float? (text : String) : Option Double :=
  if [".inf", ".Inf", ".INF", "+.inf", "+.Inf", "+.INF"].contains text then
    some (.infinity false)
  else if ["-.inf", "-.Inf", "-.INF"].contains text then some (.infinity true)
  else if [".nan", ".NaN", ".NAN"].contains text then
    some (.ofMagnitude false (Double.topField * Double.fractionWeight + twoTo 51))
  else
    match text.toList with
    | '-' :: cs => decimal? true cs
    | cs => decimal? false (dropPlus cs)

def untagged (text : String) : Found :=
  if text = "" || isNull text then .null
  else
    match boolean? text with
    | some b => .boolean b
    | none =>
      match integer? text with
      | some k => .integer k
      | none =>
        match (if hasLeadingZero text.toList then none else float? text) with
        | some x => .float x
        | none => .text text

def coreTag (name : String) : String := "tag:yaml.org,2002:" ++ name

namespace Scalar

def isPlain (s : Scalar) : Bool := s.style = .plain

/-- What the text means under a tag of the core schema, or what was expected of it. -/
def ofCoreTag? (text tag : String) : Option (Except String Found) :=
  if tag = coreTag "bool" then
    some ((boolean? text).elim (.error "a boolean") fun b => .ok (.boolean b))
  else if tag = coreTag "int" then
    some ((integer? text).elim (.error "an integer") fun k => .ok (.integer k))
  else if tag = coreTag "float" then
    some ((float? text).elim (.error "a float") fun x => .ok (.float x))
  else if tag = coreTag "null" then
    some (if isNull text then .ok .null else .error "null")
  else none

def mismatch (s : Scalar) (expected : String) : Mismatch :=
  match s.tag with
  | none => .wrongType (if s.isPlain then untagged s.text else .text s.text) expected
  | some tag =>
    match ofCoreTag? s.text tag with
    | some (.ok found) => .wrongType found expected
    | some (.error wanted) => .wrongValue (.text s.text) wanted
    | none =>
      .wrongType (if s.isPlain && tag.startsWith "!" then untagged s.text else .text s.text)
        expected

/-- The natural number below `2 ^ 64` that a plain scalar spells, or a literal one with the integer
tag. -/
def count? (s : Scalar) : Option UInt64 :=
  if s.isPlain || (s.style = .literal && s.tag == some (coreTag "int")) then
    ((natural? s.text).filter (· < twoTo 64)).map .ofNat
  else none

end Scalar
end GraphStack.Yaml
