/-!
# Hexadecimal digits

The value of a digit of either case, numbers in lower-case digits without leading zeros, and numbers
in upper-case digits of a fixed width.
-/

namespace GraphStack.Text

def hexValue? (c : Char) : Option Nat :=
  if '0' ≤ c ∧ c ≤ '9' then some (c.toNat - '0'.toNat)
  else if 'a' ≤ c ∧ c ≤ 'f' then some (c.toNat - 'a'.toNat + 10)
  else if 'A' ≤ c ∧ c ≤ 'F' then some (c.toNat - 'A'.toNat + 10)
  else none

def hexDigits (n : Nat) : String := String.ofList (Nat.toDigits 16 n)

/-- The last `width` digits of a number. -/
def hexField : Nat → Nat → List Char
  | 0, _ => []
  | width + 1, n => hexField width (n / 16) ++ [(Nat.digitChar (n % 16)).toUpper]

end GraphStack.Text
