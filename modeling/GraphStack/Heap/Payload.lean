import GraphStack.Heap.Release

/-!
# Payloads and handles

A write puts the new payload in place before the old one goes anywhere; it is refused while a scope
reads the cell. Weak handles do not keep a node alive, and turn into strong ones only while it is
alive.
-/

namespace GraphStack.Heap

def payload (h : Heap) (id : NodeId) : Value := (h.cell id).payload

def replace? (h : Heap) (id : NodeId) (v : Value) : Option (Value × Heap) :=
  if (h.cell id).readers = 0 then
    let old := h.payload id
    some (old, h.setPayload id v)
  else none

/-- A strong handle from a weak one, while the node is alive. -/
def upgrade? (h : Heap) (id : NodeId) : Option Heap :=
  if (h.cell id).isAlive then some (h.addStrong id) else none

/-- Follows direct links at most `n` times; the number of links followed, counted on from `steps`,
and the node reached. -/
def followFrom (h : Heap) (steps : Nat) (id : NodeId) : Nat → Nat × NodeId
  | 0 => (steps, id)
  | n + 1 =>
    match (h.payload id).node? with
    | some next => h.followFrom (steps + 1) next n
    | none => (steps, id)

def follow (h : Heap) (id : NodeId) (n : Nat) : Nat × NodeId := h.followFrom 0 id n

end GraphStack.Heap
