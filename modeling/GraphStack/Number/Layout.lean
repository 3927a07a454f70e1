import GraphStack.Number.Shortest

/-!
# Layouts of number texts

The texts of a double share their digits and differ in layout. A `Layout` says from which to which
power of ten a number is written out in full, whether a whole number keeps `.0`, how the exponent
is signed, and where ties between two shortest digit strings go.
-/

namespace GraphStack

structure Layout where
  lowest : Option Int
  highest : Option Int
  keepsPoint : Bool
  exponentPlus : Bool
  tie : Shortest.Tie
  deriving Repr

namespace Layout

def plain : Layout := ⟨none, none, false, false, .upward⟩

def pointed : Layout := ⟨none, none, true, false, .upward⟩

def structural : Layout := ⟨some (-4), some 15, true, false, .upward⟩

/-- Numbers from `1e-5` to below `1e16` are written out in full. -/
def json : Layout := ⟨some (-5), some 15, true, true, .even⟩

def writesInFull (l : Layout) (order : Int) : Bool :=
  l.lowest.all (· ≤ order) && l.highest.all (order ≤ ·)

/-- Trailing zeros of the digits move into the power. -/
def trimmed : Nat → Nat → Int → Nat × Int
  | 0, count, power => (count, power)
  | steps + 1, count, power =>
    if count ≠ 0 ∧ count % 10 = 0 then trimmed steps (count / 10) (power + 1) else (count, power)

def zeros (n : Nat) : String := String.ofList (List.replicate n '0')

def inFull (l : Layout) (count : Nat) (power : Int) : String :=
  let text := toString count
  if 0 ≤ power then
    text ++ zeros power.toNat ++ (if l.keepsPoint then ".0" else "")
  else
    let places := (-power).toNat
    let size := text.length
    if size ≤ places then "0." ++ zeros (places - size) ++ text
    else
      let cs := text.toList
      String.ofList (cs.take (size - places)) ++ "." ++ String.ofList (cs.drop (size - places))

/-- `count · 10 ^ power` with one digit before the point. -/
def withExponent (l : Layout) (count : Nat) (order : Int) : String :=
  let lead := match (toString count).toList with
    | [] => ""
    | [c] => String.singleton c
    | c :: cs => String.singleton c ++ "." ++ String.ofList cs
  let plus := if l.exponentPlus && 0 ≤ order then "+" else ""
  lead ++ "e" ++ plus ++ toString order

def magnitude (l : Layout) (count : Nat) (power : Int) : String :=
  let (count, power) := trimmed 20 count power
  let order := power + (toString count).length - 1
  if count = 0 then l.inFull 0 0
  else if l.writesInFull order then l.inFull count power
  else l.withExponent count order

def infinityText : String := "inf"

def nanText : String := "NaN"

def text (l : Layout) (x : Double) : String :=
  match x.reading with
  | .nan => nanText
  | .infinite negative => (if negative then "-" else "") ++ infinityText
  | .finite negative m q =>
    let body :=
      if m = 0 then l.magnitude 0 0
      else
        let (count, power) := Shortest.digits l.tie m q
        l.magnitude count power
    (if negative then "-" else "") ++ body

end Layout
end GraphStack
