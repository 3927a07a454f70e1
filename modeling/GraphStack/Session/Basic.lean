import GraphStack.Heap.Build
import GraphStack.Heap.Payload

/-!
# Sessions

A session is a heap with what its caller holds: named slots with strong handles, weak handles and
values, and named budgets. Slots are kept in ascending order of their names.
-/

namespace GraphStack

inductive Holding
  | strong (id : NodeId)
  | weak (id : NodeId)
  | value (v : Value)

inductive Misuse
  | noSlot (name : String)
  | noBudget (name : String)
  | notStrong (name : String)
  | notWeak (name : String)
  | notValue (name : String)
  deriving DecidableEq, Repr

namespace Misuse

def message : Misuse → String
  | noSlot name => "no slot " ++ name
  | noBudget name => "no budget " ++ name
  | notStrong name => "slot " ++ name ++ " holds no node"
  | notWeak name => "slot " ++ name ++ " holds no weak handle"
  | notValue name => "slot " ++ name ++ " holds no value"

end Misuse

structure Session where
  heap : Heap
  slots : List (String × Holding)
  budgets : List (String × BudgetId)

/-- Puts an entry at its place in a list ordered by name, over an earlier entry of the same name. -/
def putNamed {α : Type} (name : String) (x : α) : List (String × α) → List (String × α)
  | [] => [(name, x)]
  | (other, y) :: rest =>
    if name = other then (name, x) :: rest
    else if name < other then (name, x) :: (other, y) :: rest
    else (other, y) :: putNamed name x rest

def eraseNamed {α : Type} (name : String) (xs : List (String × α)) : List (String × α) :=
  xs.filter fun (other, _) => other ≠ name

namespace Session

def empty : Session := ⟨.empty, [], []⟩

instance : Inhabited Session := ⟨empty⟩

def onHeap (s : Session) (f : Heap → Heap) : Session := { s with heap := f s.heap }

def slot (s : Session) (name : String) : Except Misuse Holding :=
  match s.slots.lookup name with
  | some x => .ok x
  | none => .error (.noSlot name)

def node (s : Session) (name : String) : Except Misuse NodeId :=
  match s.slots.lookup name with
  | some (.strong id) => .ok id
  | some _ => .error (.notStrong name)
  | none => .error (.noSlot name)

def weakNode (s : Session) (name : String) : Except Misuse NodeId :=
  match s.slots.lookup name with
  | some (.weak id) => .ok id
  | some _ => .error (.notWeak name)
  | none => .error (.noSlot name)

def heldValue (s : Session) (name : String) : Except Misuse Value :=
  match s.slots.lookup name with
  | some (.value v) => .ok v
  | some _ => .error (.notValue name)
  | none => .error (.noSlot name)

def budgetId (s : Session) (name : String) : Except Misuse BudgetId :=
  match s.budgets.lookup name with
  | some id => .ok id
  | none => .error (.noBudget name)

end Session

namespace Heap

def releaseHolding (h : Heap) : Holding → Heap
  | .strong id => h.releaseHandle id
  | .weak id => h.dropWeak id
  | .value v => h.release v

def retainHolding (h : Heap) : Holding → Heap
  | .strong id => h.addStrong id
  | .weak id => h.addWeak id
  | .value v => h.retain v

end Heap

namespace Session

/-- Stores the new content first and then lets go of the old one. -/
def store (s : Session) (name : String) (x : Holding) : Session :=
  let old := s.slots.lookup name
  let s := { s with slots := putNamed name x s.slots }
  match old with
  | some y => s.onHeap (·.releaseHolding y)
  | none => s

/-- Empties a slot without letting go of its content. -/
def vacate (s : Session) (name : String) : Session :=
  { s with slots := eraseNamed name s.slots }

def releaseHoldings (h : Heap) : List (String × Holding) → Heap
  | [] => h
  | (_, x) :: rest => releaseHoldings (h.releaseHolding x) rest

/-- Lets go of everything that the slots hold, in the order of their names. -/
def close (s : Session) : Session := { s with heap := releaseHoldings s.heap s.slots, slots := [] }

end Session
end GraphStack
