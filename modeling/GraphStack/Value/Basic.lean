import GraphStack.Number.Double

/-!
# Payload values

A payload is nil, a truth value, a number, a text, a list, a map with text keys, or a link to a
node. A map carries its entries and the name of the shared tree they live in: copies of a map name
the same tree. Nothing here looks into the nodes that a value links to.
-/

namespace GraphStack

/-- A node is named by the number it got when it was built; the first node is number 1. -/
structure NodeId where
  number : Nat
  deriving DecidableEq, Repr, Inhabited

structure MapId where
  index : Nat
  deriving DecidableEq, Repr, Inhabited

inductive Value
  | nil
  | bool (b : Bool)
  | number (x : Double)
  | text (s : String)
  | list (items : List Value)
  | map (tree : MapId) (entries : List (String × Value))
  | node (id : NodeId)
  deriving Inhabited, Repr

namespace Value

def typeName : Value → String
  | nil => "Nil"
  | bool _ => "Bool"
  | number _ => "Number"
  | text _ => "String"
  | list _ => "List"
  | map _ _ => "Map"
  | node _ => "Node"

def isNil : Value → Bool
  | nil => true
  | _ => false

def bool? : Value → Option Bool
  | bool b => some b
  | _ => none

def number? : Value → Option Double
  | number x => some x
  | _ => none

def text? : Value → Option String
  | text s => some s
  | _ => none

def node? : Value → Option NodeId
  | node id => some id
  | _ => none

mutual
def depth : Value → Nat
  | list items => depths items + 1
  | map _ entries => entryDepths entries + 1
  | _ => 0

def depths : List Value → Nat
  | [] => 0
  | v :: vs => max v.depth (depths vs)

def entryDepths : List (String × Value) → Nat
  | [] => 0
  | (_, v) :: es => max v.depth (entryDepths es)
end

mutual
/-- Equality of values: numbers as doubles compare, links by the node they name, and maps by their
keys and the values under them, in any order. -/
def same : Value → Value → Bool
  | nil, nil => true
  | bool a, bool b => a == b
  | number x, number y => x.same y
  | text s, text t => s == t
  | list vs, list ws => sameLists vs ws
  | map _ es, map _ fs => es.length == fs.length && sameEntries es fs
  | node a, node b => a == b
  | _, _ => false

def sameLists : List Value → List Value → Bool
  | [], [] => true
  | v :: vs, w :: ws => v.same w && sameLists vs ws
  | _, _ => false

/-- Each of the first entries has an equal value under its key among the second. -/
def sameEntries : List (String × Value) → List (String × Value) → Bool
  | [], _ => true
  | (k, v) :: es, fs =>
    (match fs.lookup k with
      | some w => v.same w
      | none => false) && sameEntries es fs
end

mutual
/-- No map in the value has two entries, so every text of the value is the same whatever order
entries come in. -/
def orderFree : Value → Bool
  | list items => orderFrees items
  | map _ entries => entries.length < 2 && orderFreeEntries entries
  | _ => true

def orderFrees : List Value → Bool
  | [] => true
  | v :: vs => v.orderFree && orderFrees vs

def orderFreeEntries : List (String × Value) → Bool
  | [] => true
  | (_, v) :: es => v.orderFree && orderFreeEntries es
end

end Value
end GraphStack
