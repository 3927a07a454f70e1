import GraphStack.Heap.Payload
import GraphStack.Value.Text

/-!
# Outlines of nodes and budgets

A node shows its name and its payload, in which other nodes are names only; so a cyclic payload
has a finite outline. A weak handle shows whether its node is alive.
-/

namespace GraphStack

def Model.nodeName : Model → String
  | .single => "Node"
  | .shared => "SyncNode"

def nodeOutline (model : Model) (id : NodeId) (payload : Outline) : Outline :=
  .record model.nodeName [("id", id.outline), ("payload", payload)]

def weakOutline (model : Model) (alive : Bool) : Outline :=
  .record ("Weak" ++ model.nodeName) [("alive", .ofBool alive)]

def Budget.outline (b : Budget) : Outline :=
  .record "NodeBudget"
    [("state", .record "BudgetState"
      [("label", .atom (Text.quoted b.label)), ("limit", .ofOption (b.limit.map .ofNat)),
       ("live", .ofNat b.live), ("peak", .ofNat b.peak)])]

namespace Heap

def outlineStrong (h : Heap) (id : NodeId) : Outline :=
  nodeOutline (h.cell id).model id (h.payload id).outline

def outlineWeak (h : Heap) (id : NodeId) : Outline :=
  weakOutline (h.cell id).model (h.cell id).isAlive

end Heap
end GraphStack
