import GraphStack.Session.Basic

/-!
# Recipes

A recipe says how a value is put together: from scalars, lists and maps, from new nodes, and from
what the slots of a session hold, which can be shared, copied or moved out of its slot. Parts are
built from left to right, and in a map a later value under a key releases the earlier one.
-/

namespace GraphStack

inductive Recipe
  | nil
  | bool (b : Bool)
  | text (s : String)
  | repeated (s : String) (n : Nat)
  | number (x : Double)
  | integer (k : Int)
  | list (items : List Recipe)
  | map (entries : List (String × Recipe))
  /-- The value inside so many lists of one element. -/
  | nested (n : Nat) (r : Recipe)
  | fresh (r : Recipe)
  | share (slot : String)
  | move (slot : String)
  | copy (slot : String)

def nestedIn : Nat → Value → Value
  | 0, v => v
  | n + 1, v => nestedIn n (.list [v])

def repeatedText (s : String) (n : Nat) : String := String.join (List.replicate n s)

/-- Puts a value under a key, in the place of an earlier value if there is one. -/
def putEntry (key : String) (v : Value) : List (String × Value) → List (String × Value)
  | [] => [(key, v)]
  | (k, w) :: es => if k = key then (key, v) :: es else (k, w) :: putEntry key v es

namespace Session

/-- Takes the value, or a link in place of the handle, out of a slot. -/
def moveOut (s : Session) (name : String) : Except Misuse (Value × Session) :=
  match s.slots.lookup name with
  | some (.value v) => .ok (v, s.vacate name)
  | some (.strong id) => .ok (.node id, s.vacate name)
  | some (.weak _) => .error (.notValue name)
  | none => .error (.noSlot name)

mutual
def build (s : Session) : Recipe → Except Misuse (Value × Session)
  | .nil => .ok (.nil, s)
  | .bool b => .ok (.bool b, s)
  | .text t => .ok (.text t, s)
  | .repeated t n => .ok (.text (repeatedText t n), s)
  | .number x => .ok (.number x, s)
  | .integer k => .ok (.number (.ofInt k), s)
  | .list items =>
    match s.buildAll items with
    | .error e => .error e
    | .ok (vs, s) => .ok (.list vs, s)
  | .map entries =>
    match s.buildEntries [] entries with
    | .error e => .error e
    | .ok (es, s) => .ok (.map s.heap.nextTree es, s.onHeap (·.plant es))
  | .nested n r =>
    match s.build r with
    | .error e => .error e
    | .ok (v, s) => .ok (nestedIn n v, s)
  | .fresh r =>
    match s.build r with
    | .error e => .error e
    | .ok (v, s) => .ok (.node s.heap.nextNode, s.onHeap (·.build .single v none))
  | .share name =>
    match s.node name with
    | .error e => .error e
    | .ok id => .ok (.node id, s.onHeap (·.addStrong id))
  | .move name => s.moveOut name
  | .copy name =>
    match s.heldValue name with
    | .error e => .error e
    | .ok v => .ok (v, s.onHeap (·.retain v))

def buildAll (s : Session) : List Recipe → Except Misuse (List Value × Session)
  | [] => .ok ([], s)
  | r :: rs =>
    match s.build r with
    | .error e => .error e
    | .ok (v, s) =>
      match s.buildAll rs with
      | .error e => .error e
      | .ok (vs, s) => .ok (v :: vs, s)

def buildEntries (s : Session) (done : List (String × Value)) :
    List (String × Recipe) → Except Misuse (List (String × Value) × Session)
  | [] => .ok (done, s)
  | (key, r) :: rest =>
    match s.build r with
    | .error e => .error e
    | .ok (v, s) =>
      let s := match done.lookup key with
        | some old => s.onHeap (·.release old)
        | none => s
      s.buildEntries (putEntry key v done) rest
end

def buildCall (s : Session) :
    List (Option String × Recipe) → Except Misuse (List (Option String × Value) × Session)
  | [] => .ok ([], s)
  | (name, r) :: rest =>
    match s.build r with
    | .error e => .error e
    | .ok (v, s) =>
      match s.buildCall rest with
      | .error e => .error e
      | .ok (vs, s) => .ok ((name, v) :: vs, s)

end Session
end GraphStack
