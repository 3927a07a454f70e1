import GraphStack.Number.Layout
import GraphStack.Text.Quoted

/-!
# Mismatches

What a well-formed document can hold in place of what a field wants, and the ways in which a
document can fail to have the wanted shape. The formats word the absent value and the fractional
numbers differently; `Wording` holds what differs.
-/

namespace GraphStack

inductive Found
  | null
  | boolean (b : Bool)
  | integer (k : Int)
  | float (x : Double)
  | text (s : String)
  | sequence
  | mapping
  deriving DecidableEq, Repr

structure Wording where
  null : String
  float : Layout

inductive Mismatch
  | wrongType (found : Found) (expected : String)
  | wrongValue (found : Found) (expected : String)
  | unknownField (name : String) (fields : List String)
  | duplicateField (name : String)
  | missingField (name : String)
  | wrongLength (length : Nat) (expected : String)
  deriving DecidableEq, Repr

namespace Found

def ticked (s : String) : String := "`" ++ s ++ "`"

/-- Integers beyond 64 bits are named with their width. -/
def integerText (k : Int) : String :=
  let base := "integer " ++ ticked (toString k)
  if (twoTo 64 : Int) ≤ k then base ++ " as u128"
  else if k < -(twoTo 63 : Int) then base ++ " as i128"
  else base

def describe (w : Wording) : Found → String
  | .null => w.null
  | .boolean b => "boolean " ++ ticked (if b then "true" else "false")
  | .integer k => integerText k
  | .float x => "floating point " ++ ticked (w.float.text x)
  | .text s => "string " ++ Text.quoted s
  | .sequence => "sequence"
  | .mapping => "map"

end Found

namespace Mismatch

def message (w : Wording) : Mismatch → String
  | .wrongType found expected =>
    "invalid type: " ++ found.describe w ++ ", expected " ++ expected
  | .wrongValue found expected =>
    "invalid value: " ++ found.describe w ++ ", expected " ++ expected
  | .unknownField name fields =>
    "unknown field " ++ Found.ticked name ++ ", expected "
      ++ String.intercalate " or " (fields.map Found.ticked)
  | .duplicateField name => "duplicate field " ++ Found.ticked name
  | .missingField name => "missing field " ++ Found.ticked name
  | .wrongLength length expected =>
    "invalid length " ++ toString length ++ ", expected " ++ expected

end Mismatch
end GraphStack
