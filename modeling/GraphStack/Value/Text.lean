import GraphStack.Json.Quoted
import GraphStack.Text.Outline
import GraphStack.Value.Basic

/-!
# Texts of values

`Value.display` is the text for a reader: lists in parentheses, maps in braces, a link as the
node's name, and whole numbers below `10 ^ 15` as integers. `Value.outline` shows the structure.
`Value.json` is the compact JSON text with the keys of each map in ascending order; a link is
written as an object whose one member `node` is the number, and a number that is not finite is
`null`.
-/

namespace GraphStack

def NodeId.outline (id : NodeId) : Outline := .applied "NodeId" [.ofNat id.number]

def NodeId.mark (id : NodeId) : String := "#" ++ Text.hexDigits id.number

namespace Value

/-- The whole numbers from here on are written like the other numbers. -/
def integerBound : Nat := tenTo 15

def displayNumber (x : Double) : String :=
  match x.toInt? with
  | some k => if k.natAbs < integerBound then toString k else Layout.plain.text x
  | none => Layout.plain.text x

section
variable (name : NodeId → String)

mutual
def displayWith : Value → String
  | nil => "nil"
  | bool b => if b then "true" else "false"
  | number x => displayNumber x
  | text s => s
  | list items => "(" ++ String.intercalate " " (displaysWith items) ++ ")"
  | map _ entries => "\x7b" ++ String.intercalate ", " (entryDisplaysWith entries) ++ "\x7d"
  | node id => "<node " ++ name id ++ ">"

def displaysWith : List Value → List String
  | [] => []
  | v :: vs => displayWith v :: displaysWith vs

def entryDisplaysWith : List (String × Value) → List String
  | [] => []
  | (k, v) :: es => (k ++ ": " ++ displayWith v) :: entryDisplaysWith es
end

end

/-- The text for a reader, with a linked node named by its number in decimal. This departs from the
program, which writes the node's address in hexadecimal: its text is `displayWith NodeId.mark`. -/
def display (v : Value) : String := v.displayWith fun id => "#" ++ toString id.number

mutual
def outline : Value → Outline
  | nil => .atom "Nil"
  | bool b => .applied "Bool" [.ofBool b]
  | number x => .applied "Number" [.atom (Layout.structural.text x)]
  | text s => .applied "String" [.atom (Text.quoted s)]
  | list items => .applied "List" [.sequence (outlines items)]
  | map _ entries => .applied "Map" [.table (entryOutlines entries)]
  | node id => .applied "Node" [id.outline]

def outlines : List Value → List Outline
  | [] => []
  | v :: vs => v.outline :: outlines vs

def entryOutlines : List (String × Value) → List (Outline × Outline)
  | [] => []
  | (k, v) :: es => (.atom (Text.quoted k), v.outline) :: entryOutlines es
end

def jsonNumber (x : Double) : String := if x.isFinite then Layout.json.text x else "null"

def jsonMember (member : String × String) : String :=
  Json.encodeString member.1 ++ ":" ++ member.2

mutual
def json : Value → String
  | nil => "null"
  | bool b => if b then "true" else "false"
  | number x => jsonNumber x
  | text s => Json.encodeString s
  | list items => "[" ++ String.intercalate "," (jsons items) ++ "]"
  | map _ entries =>
    let members := (entryJsons entries).mergeSort fun a b => a.1 ≤ b.1
    "\x7b" ++ String.intercalate "," (members.map jsonMember) ++ "\x7d"
  | node id => "\x7b" ++ jsonMember ("node", toString id.number) ++ "\x7d"

def jsons : List Value → List String
  | [] => []
  | v :: vs => v.json :: jsons vs

def entryJsons : List (String × Value) → List (String × String)
  | [] => []
  | (k, v) :: es => (k, v.json) :: entryJsons es
end

end Value
end GraphStack
