import GraphStack.Arguments
import GraphStack.Heap.Release

/-!
# Building nodes

`Heap.construct` builds a node, through a budget or without one. A budget whose limit is reached
refuses; the payload that was meant for the node is released then. `Heap.constructFrom` looks at
the shape of the arguments first, so a call of a bad shape leaves the budget alone and only
releases its arguments.
-/

namespace GraphStack

/-- The live nodes of a budget and its limit at the moment of a refusal. -/
structure Refusal where
  live : Nat
  limit : Nat
  deriving DecidableEq, Repr

namespace Refusal

def message (r : Refusal) : String :=
  "cannot allocate node: " ++ toString r.live ++ " of " ++ toString r.limit ++ " live nodes in use"

def help : String := "release abandoned stack branches or raise `max_live_nodes`"

def fault (r : Refusal) : Fault := { Fault.plain .allocation r.message with help := some help }

end Refusal

namespace Heap

def refuse (h : Heap) (b : Budget) (limit : Nat) (payload : Value) : Heap :=
  (h.log (.exhausted b.label b.live limit)).release payload

def construct (h : Heap) (model : Model) (payload : Value) (through : Option BudgetId) :
    Except Refusal NodeId × Heap :=
  match through with
  | none => (.ok h.nextNode, h.build model payload none)
  | some id =>
    match reachedLimit? (h.budget id) with
    | some limit =>
      let b := h.budget id
      (.error ⟨b.live, limit⟩, h.refuse b limit payload)
    | none =>
      let h := h.lend id
      (.ok h.nextNode, h.build model payload (some id))

/-- The node, or the report of why there is none. -/
def constructOrFault (h : Heap) (model : Model) (payload : Value) (through : Option BudgetId) :
    Except Fault NodeId × Heap :=
  match h.construct model payload through with
  | (.ok id, h) => (.ok id, h)
  | (.error r, h) => (.error r.fault, h)

def constructFrom (h : Heap) (model : Model) (args : Arguments Value)
    (through : Option BudgetId) : Except Fault NodeId × Heap :=
  match args.payload? with
  | .error e => (.error e.fault, h.releaseAll args.values)
  | .ok payload => h.constructOrFault model (payload.getD .nil) through

end Heap
end GraphStack
