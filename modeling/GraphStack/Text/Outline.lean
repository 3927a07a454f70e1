/-!
# Outlines

An `Outline` is the shape of a value as it is shown for inspection: records with named fields,
constructors with arguments, sequences and tables. `Outline.line` writes it in one line and
`Outline.block` writes one item a line, indented by four spaces, with a comma after each.
-/

namespace GraphStack

inductive Outline
  | atom (text : String)
  | applied (name : String) (arguments : List Outline)
  | record (name : String) (fields : List (String × Outline))
  | sequence (items : List Outline)
  | table (entries : List (Outline × Outline))
  deriving Inhabited

namespace Outline

def openBrace : String := "\x7b"

def closeBrace : String := "\x7d"

def joined (texts : List String) : String := String.intercalate ", " texts

mutual
def line : Outline → String
  | .atom text => text
  | .applied name arguments => name ++ "(" ++ joined (lines arguments) ++ ")"
  | .record name fields =>
    match fields with
    | [] => name
    | _ => name ++ " " ++ openBrace ++ " " ++ joined (fieldLines fields) ++ " " ++ closeBrace
  | .sequence items => "[" ++ joined (lines items) ++ "]"
  | .table entries => openBrace ++ joined (entryLines entries) ++ closeBrace

def lines : List Outline → List String
  | [] => []
  | o :: os => o.line :: lines os

def fieldLines : List (String × Outline) → List String
  | [] => []
  | (name, o) :: fields => (name ++ ": " ++ o.line) :: fieldLines fields

def entryLines : List (Outline × Outline) → List String
  | [] => []
  | (key, o) :: entries => (key.line ++ ": " ++ o.line) :: entryLines entries
end

def indent (depth : Nat) : String := String.ofList (List.replicate (4 * depth) ' ')

/-- Items between two brackets, one a line; nothing between the brackets when there are none. -/
def bracketed (depth : Nat) (left right : String) (items : List String) : String :=
  match items with
  | [] => left ++ right
  | _ =>
    let body := items.map fun item => indent (depth + 1) ++ item ++ ",\n"
    left ++ "\n" ++ String.join body ++ indent depth ++ right

mutual
/-- The outline in lines, for a place that is `depth` levels deep. -/
def blockAt (depth : Nat) : Outline → String
  | .atom text => text
  | .applied name arguments =>
    bracketed depth (name ++ "(") ")" (blocksAt (depth + 1) arguments)
  | .record name fields =>
    match fields with
    | [] => name
    | _ => bracketed depth (name ++ " " ++ openBrace) closeBrace (fieldBlocksAt (depth + 1) fields)
  | .sequence items => bracketed depth "[" "]" (blocksAt (depth + 1) items)
  | .table entries => bracketed depth openBrace closeBrace (entryBlocksAt (depth + 1) entries)

def blocksAt (depth : Nat) : List Outline → List String
  | [] => []
  | o :: os => o.blockAt depth :: blocksAt depth os

def fieldBlocksAt (depth : Nat) : List (String × Outline) → List String
  | [] => []
  | (name, o) :: fields => (name ++ ": " ++ o.blockAt depth) :: fieldBlocksAt depth fields

def entryBlocksAt (depth : Nat) : List (Outline × Outline) → List String
  | [] => []
  | (key, o) :: entries =>
    (key.blockAt depth ++ ": " ++ o.blockAt depth) :: entryBlocksAt depth entries
end

def block (o : Outline) : String := o.blockAt 0

def ofBool (b : Bool) : Outline := .atom (if b then "true" else "false")

def ofNat (n : Nat) : Outline := .atom (toString n)

def ofInt (k : Int) : Outline := .atom (toString k)

def ofOption (o : Option Outline) : Outline :=
  match o with
  | none => .atom "None"
  | some o => .applied "Some" [o]

end Outline
end GraphStack
