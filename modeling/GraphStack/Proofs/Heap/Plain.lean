import GraphStack.Proofs.Heap.Leases

/-!
# Plain reference counting

`Heap.discard` lets go of a value by recursion, with no stack of tasks and no walk along links: a
link gives its handle up, a node whose last handle goes releases its payload and then ends its
lease, and a map whose last copy goes releases its entries. The recursion ends because no call
leaves the heap heavier than it was.
-/

namespace GraphStack.Heap

theorem weight_destroy_le (h : Heap) (id : NodeId) :
    ((h.dropStrong id).setPayload id .nil).weight + (h.cell id).payload.weight ≤ h.weight + 1 := by
  have h1 := h.weight_dropStrong_le id
  have h2 := (h.dropStrong id).weight_clear_le id
  have h3 : (h.cell id).payload.weight ≤ ((h.dropStrong id).cell id).weight + 1 := by
    simp only [Cell.weight, payload_dropStrong]
    cases (h.cell id).payload <;> simp [Value.weight]
  omega

theorem weight_fell_dropCopy_le (h : Heap) (t : MapId) :
    ((h.dropCopy t).fell t).weight + Value.weights ((h.tree t).entries.map (·.2)) ≤ h.weight := by
  have h1 := h.weight_dropCopy_le t
  have h2 := (h.dropCopy t).weight_fell_le t
  simp only [Tree.weight, entries_dropCopy] at h2
  omega

mutual
def discarding (h : Heap) (v : Value) : { h' : Heap // h'.weight ≤ h.weight } :=
  match v with
  | .list items => h.discardingAll items
  | .map t _ =>
    if ((h.dropCopy t).tree t).copies = 0 then
      let r := ((h.dropCopy t).fell t).discardingAll ((h.tree t).entries.map (·.2))
      ⟨r.1, r.2.trans ((Nat.le_add_right _ _).trans (h.weight_fell_dropCopy_le t))⟩
    else ⟨h.dropCopy t, h.weight_dropCopy_le t⟩
  | .node id => h.discardingHandle id
  | _ => ⟨h, Nat.le_refl _⟩
termination_by h.weight + v.weight
decreasing_by
  · simp only [Value.weight]
    omega
  · have := h.weight_fell_dropCopy_le t
    simp only [Value.weight]
    omega
  · simp only [Value.weight]
    omega

def discardingAll (h : Heap) (vs : List Value) : { h' : Heap // h'.weight ≤ h.weight } :=
  match vs with
  | [] => ⟨h, Nat.le_refl _⟩
  | v :: vs =>
    match h.discarding v with
    | ⟨h', hw⟩ =>
      match h'.discardingAll vs with
      | ⟨h'', hw'⟩ => ⟨h'', hw'.trans hw⟩
termination_by h.weight + Value.weights vs
decreasing_by
  · simp only [Value.weights]
    omega
  · simp only [Value.weights]
    omega

def discardingHandle (h : Heap) (id : NodeId) : { h' : Heap // h'.weight ≤ h.weight } :=
  if ((h.dropStrong id).cell id).strong = 0 then
    let r := ((h.dropStrong id).setPayload id .nil).discarding (h.cell id).payload
    ⟨r.1.endLease id, by
      have h1 := r.1.weight_endLease_le id
      have h2 := (h.dropStrong id).weight_clear_le id
      have h3 := h.weight_dropStrong_le id
      have h4 := r.2
      omega⟩
  else ⟨h.dropStrong id, h.weight_dropStrong_le id⟩
termination_by h.weight + 3
decreasing_by
  have := h.weight_destroy_le id
  omega
end

/-- Lets go of a value by recursion. -/
def discard (h : Heap) (v : Value) : Heap := (h.discarding v).1

def discardAll (h : Heap) (vs : List Value) : Heap := (h.discardingAll vs).1

def discardHandle (h : Heap) (id : NodeId) : Heap := (h.discardingHandle id).1

variable {h : Heap} {id : NodeId} {v : Value}

theorem discard_list (h : Heap) (vs : List Value) : h.discard (.list vs) = h.discardAll vs := by
  rw [discard, discarding, discardAll]

theorem discard_map (h : Heap) (t : MapId) (es : List (String × Value)) :
    h.discard (.map t es) =
      if ((h.dropCopy t).tree t).copies = 0 then
        ((h.dropCopy t).fell t).discardAll ((h.tree t).entries.map (·.2))
      else h.dropCopy t := by
  rw [discard, discarding]
  split <;> rfl

theorem discard_node (h : Heap) (id : NodeId) : h.discard (.node id) = h.discardHandle id := by
  rw [discard, discarding, discardHandle]

theorem discard_scalar (h : Heap) (hl : ∀ vs, v ≠ .list vs) (hm : ∀ t es, v ≠ .map t es)
    (hn : ∀ id, v ≠ .node id) : h.discard v = h := by
  rw [discard, discarding]
  · exact hl
  · exact hm
  · exact hn

theorem discardAll_nil (h : Heap) : h.discardAll [] = h := by
  rw [discardAll, discardingAll]

theorem discardAll_cons (h : Heap) (v : Value) (vs : List Value) :
    h.discardAll (v :: vs) = (h.discard v).discardAll vs := by
  rw [discardAll, discardingAll]
  rfl

theorem discardHandle_eq (h : Heap) (id : NodeId) :
    h.discardHandle id =
      if ((h.dropStrong id).cell id).strong = 0 then
        (((h.dropStrong id).setPayload id .nil).discard (h.cell id).payload).endLease id
      else h.dropStrong id := by
  rw [discardHandle, discardingHandle]
  split <;> rfl

end GraphStack.Heap
