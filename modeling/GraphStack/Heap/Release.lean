import GraphStack.Heap.Basic
import GraphStack.Total

/-!
# Releases

A release works through a stack of tasks. Releasing a link to a node first unlinks: while the frame
has no other handle and its payload is a link, the payload becomes nil and the walk goes on to the
linked frame, which is let go of as soon as its own link has been taken. Only then does the handle
of the first frame go. A node without handles is destroyed: its payload is released, then its lease
is given back.

`Heap.run` works the tasks off; it ends because every task takes more weight off the stack and the
heap than it puts there. `Task.finish` marks where the release of one value ends, so the number of
such marks on the stack is the depth to which releases of values are nested.
-/

namespace GraphStack

inductive Task
  | value (v : Value)
  | values (vs : List Value)
  /-- Take the link out of a frame that is about to be let go of, and walk on from there. -/
  | unlink (id : NodeId)
  /-- Take the link out of a frame that the walk holds, and let go of the frame. -/
  | walk (id : NodeId)
  | handle (id : NodeId)
  /-- End the lease of a node whose payload has been released. -/
  | close (id : NodeId)
  | finish

namespace Heap

/-- The node that a frame links to, if the frame has one handle and its payload is a link. -/
def uniqueTail? (h : Heap) (id : NodeId) : Option NodeId :=
  if (h.cell id).strong = 1 then (h.cell id).payload.node? else none

/-- The frame loses its link, and the handle in the link is doubled for the walk. A frame that a
scope reads keeps its link. -/
def detach (h : Heap) (id tail : NodeId) : Heap := (h.addStrong tail).setPayload id .nil

def takeTail (h : Heap) (id : NodeId) : Option NodeId × Heap :=
  match h.uniqueTail? id with
  | none => (none, h)
  | some tail =>
    if (h.cell id).readers = 0 then (some tail, h.detach id tail)
    else (none, { h with refusals := h.refusals + 1 })

/-- Does a task; what remains to be done comes before the other tasks. -/
def perform (h : Heap) : Task → List Task × Heap
  | .value (.list items) => ([.values items, .finish], h)
  | .value (.map tree _) =>
    let h := h.dropCopy tree
    if (h.tree tree).copies = 0 then
      let entries := (h.tree tree).entries
      ([.values (entries.map (·.2)), .finish], h.fell tree)
    else ([], h)
  | .value (.node id) => ([.unlink id, .handle id, .finish], h)
  | .value _ => ([], h)
  | .values [] => ([], h)
  | .values (v :: vs) => ([.value v, .values vs], h)
  | .unlink id =>
    match h.takeTail id with
    | (some tail, h) => ([.value (.node tail), .walk tail], h)
    | (none, h) => ([], h)
  | .walk id =>
    match h.takeTail id with
    | (some tail, h) => ([.value (.node tail), .handle id, .walk tail], h)
    | (none, h) => ([.handle id], h)
  | .handle id =>
    let h := h.dropStrong id
    if (h.cell id).strong = 0 then
      let payload := (h.cell id).payload
      ([.value payload, .close id], h.setPayload id .nil)
    else ([], h)
  | .close id => ([], h.endLease id)
  | .finish => ([], h)

end Heap

/-! ## Why a release ends -/

mutual
def Value.weight : Value → Nat
  | .list items => Value.weights items + 3
  | .map _ _ => 3
  | .node _ => 6
  | _ => 1

def Value.weights : List Value → Nat
  | [] => 0
  | v :: vs => v.weight + Value.weights vs + 1
end

def Task.weight : Task → Nat
  | value v => v.weight
  | values vs => Value.weights vs + 1
  | unlink _ => 1
  | walk _ => 4
  | handle _ => 3
  | close _ => 1
  | finish => 1

def Task.weights (ts : List Task) : Nat := total Task.weight ts

/-- What the payload of a cell adds to the weight of the heap. -/
def Cell.weight (c : Cell) : Nat :=
  match c.payload with
  | .nil => 0
  | v => v.weight + 4

def Tree.weight (t : Tree) : Nat := Value.weights (t.entries.map (·.2))

def Heap.weight (h : Heap) : Nat :=
  total Cell.weight h.cells.toList + total Tree.weight h.trees.toList

namespace Heap

theorem weight_modifyCell_le (h : Heap) (id : NodeId) (f : Cell → Cell) :
    (h.modifyCell id f).weight + (h.cell id).weight ≤ h.weight + (f (h.cell id)).weight := by
  have := total_modify_le Cell.weight f (d := .vacant) rfl id.number h.cells.toList
  simp only [weight, modifyCell, cell, Array.toList_modify, Array.getD_eq_getD_getElem?,
    List.getD_eq_getElem?_getD, Array.getElem?_toList] at this ⊢
  omega

theorem weight_modifyTree_le (h : Heap) (id : MapId) (f : Tree → Tree) :
    (h.modifyTree id f).weight + (h.tree id).weight ≤ h.weight + (f (h.tree id)).weight := by
  have := total_modify_le Tree.weight f (d := ⟨0, []⟩) rfl id.index h.trees.toList
  simp only [weight, modifyTree, tree, Array.toList_modify, Array.getD_eq_getD_getElem?,
    List.getD_eq_getElem?_getD, Array.getElem?_toList] at this ⊢
  omega

theorem weight_addStrong_le (h : Heap) (id : NodeId) : (h.addStrong id).weight ≤ h.weight := by
  have := h.weight_modifyCell_le id (fun c => { c with strong := c.strong + 1 })
  simp only [Cell.weight, addStrong] at this ⊢
  omega

theorem weight_dropStrong_le (h : Heap) (id : NodeId) : (h.dropStrong id).weight ≤ h.weight := by
  have := h.weight_modifyCell_le id (fun c => { c with strong := c.strong - 1 })
  simp only [Cell.weight, dropStrong] at this ⊢
  omega

theorem weight_clear_le (h : Heap) (id : NodeId) :
    (h.setPayload id .nil).weight + (h.cell id).weight ≤ h.weight :=
  h.weight_modifyCell_le id (fun c => { c with payload := .nil })

theorem weight_dropCopy_le (h : Heap) (id : MapId) : (h.dropCopy id).weight ≤ h.weight := by
  have := h.weight_modifyTree_le id (fun t => { t with copies := t.copies - 1 })
  simp only [Tree.weight, dropCopy] at this ⊢
  omega

theorem weight_fell_le (h : Heap) (id : MapId) :
    (h.fell id).weight + (h.tree id).weight ≤ h.weight :=
  h.weight_modifyTree_le id (fun t => { t with entries := [] })

theorem weight_endLease_le (h : Heap) (id : NodeId) : (h.endLease id).weight ≤ h.weight := by
  unfold endLease
  split
  · exact Nat.le_refl _
  · have := h.weight_modifyCell_le id (fun c => { c with lease := none })
    simp only [Cell.weight, giveBack, log, modifyBudget, weight] at this ⊢
    omega

theorem payload_addStrong (h : Heap) (id tail : NodeId) :
    ((h.addStrong tail).cell id).payload = (h.cell id).payload := by
  simp only [cell, addStrong, modifyCell, Array.getD_eq_getD_getElem?, Array.getElem?_modify]
  cases h.cells[id.number]? with
  | none => simp
  | some c =>
    simp only [Option.map_some, Option.getD_some]
    split <;> rfl

theorem Cell.weight_of_node {c : Cell} {tail : NodeId} (hc : c.payload.node? = some tail) :
    c.weight = 10 := by
  unfold Cell.weight
  cases hp : c.payload <;> simp [hp, Value.node?] at hc
  rfl

theorem weight_takeTail_some {h h' : Heap} {id tail : NodeId}
    (ht : h.takeTail id = (some tail, h')) : h'.weight + 10 ≤ h.weight := by
  unfold takeTail at ht
  split at ht
  · cases ht
  · rename_i t hu
    split at ht
    · cases ht
      have hn : (h.cell id).payload.node? = some tail := by
        unfold uniqueTail? at hu
        split at hu
        · exact hu
        · cases hu
      have h1 := h.weight_addStrong_le tail
      have h2 := (h.addStrong tail).weight_clear_le id
      rw [Cell.weight_of_node (by rw [payload_addStrong]; exact hn)] at h2
      unfold detach
      omega
    · cases ht

theorem weight_takeTail_none {h h' : Heap} {id : NodeId}
    (ht : h.takeTail id = (none, h')) : h'.weight ≤ h.weight := by
  unfold takeTail at ht
  split at ht
  · cases ht; exact Nat.le_refl _
  · split at ht
    · cases ht
    · cases ht; exact Nat.le_refl _

theorem weight_perform_lt (h : Heap) (t : Task) :
    Task.weights (h.perform t).1 + (h.perform t).2.weight < h.weight + t.weight := by
  unfold perform
  split
  · simp [Task.weights, Task.weight, Value.weight]; omega
  · rename_i tree es
    have h1 := h.weight_dropCopy_le tree
    have h2 := (h.dropCopy tree).weight_fell_le tree
    have h3 : ((h.dropCopy tree).tree tree).weight =
      Value.weights (((h.dropCopy tree).tree tree).entries.map (·.2)) := rfl
    dsimp only
    split
    · simp [Task.weights, Task.weight, Value.weight]; omega
    · simp [Task.weights, Task.weight, Value.weight]; omega
  · simp [Task.weights, Task.weight, Value.weight]; omega
  · rename_i v _ _ _
    cases v <;> simp_all [Task.weights, Task.weight, Value.weight]
  · simp [Task.weights, Task.weight, Value.weights]
  · simp [Task.weights, Task.weight, Value.weights]; omega
  · split
    · rename_i ht
      have := weight_takeTail_some ht
      simp [Task.weights, Task.weight, Value.weight]; omega
    · rename_i ht
      have := weight_takeTail_none ht
      simp [Task.weights, Task.weight]; omega
  · split
    · rename_i ht
      have := weight_takeTail_some ht
      simp [Task.weights, Task.weight, Value.weight]; omega
    · rename_i ht
      have := weight_takeTail_none ht
      simp [Task.weights, Task.weight]; omega
  · rename_i id
    have h1 := h.weight_dropStrong_le id
    have h2 := (h.dropStrong id).weight_clear_le id
    have h3 : ((h.dropStrong id).cell id).payload.weight ≤
        ((h.dropStrong id).cell id).weight + 1 := by
      unfold Cell.weight
      cases ((h.dropStrong id).cell id).payload <;> simp [Value.weight]
    dsimp only
    split
    · simp [Task.weights, Task.weight]; omega
    · simp [Task.weights, Task.weight]; omega
  · rename_i id
    have := h.weight_endLease_le id
    simp [Task.weights, Task.weight]; omega
  · simp [Task.weights, Task.weight]

def run (h : Heap) (tasks : List Task) : Heap :=
  match tasks with
  | [] => h
  | t :: rest =>
    match hp : h.perform t with
    | (new, h') =>
      have : Task.weights new + h'.weight < h.weight + t.weight := by
        have := h.weight_perform_lt t
        rw [hp] at this
        exact this
      run h' (new ++ rest)
termination_by h.weight + Task.weights tasks
decreasing_by
  simp only [Task.weights, total_append, total_cons] at *
  omega

def release (h : Heap) (v : Value) : Heap := h.run [.value v]

def releaseAll (h : Heap) (vs : List Value) : Heap := h.run [.values vs]

def releaseHandle (h : Heap) (id : NodeId) : Heap := h.run [.handle id]

end Heap
end GraphStack
