import GraphStack.Proofs.Execution.Sound

/-!
# Counts of handles

`Heap.handlesAround` lists all handles there are: those in what is held, those in the payloads of
living nodes, and those among the entries of each shared tree, once however many maps share it. At
every moment of every run each counter is the number of times its handle is in the list, and no
link anywhere leads to a destroyed node.
-/

namespace GraphStack

/-- A link to the node is in the value, at any depth. -/
inductive Value.Names (id : NodeId) : Value → Prop
  | link : Names id (.node id)
  | item {vs : List Value} {v : Value} (hm : v ∈ vs) (hn : Names id v) : Names id (.list vs)
  | entry {tree : MapId} {es : List (String × Value)} {e : String × Value} (hm : e ∈ es)
      (hn : Names id e.2) : Names id (.map tree es)

namespace Heap

variable {h : Heap} {o : List Holding} {id : NodeId} {v : Value}

def livingNodes (h : Heap) : List NodeId :=
  ((List.range h.cells.size).map NodeId.mk).filter fun id => (h.cell id).isAlive

def sharedTrees (h : Heap) : List MapId :=
  ((List.range h.trees.size).map MapId.mk).filter fun t => (h.tree t).copies ≠ 0

def handlesAround (h : Heap) (owned : List Holding) : List Handle :=
  Holding.handlesAll owned ++ h.livingNodes.flatMap (fun id => (h.payload id).handles) ++
    h.sharedTrees.flatMap (fun t => (h.tree t).handles)

/-- Something that is held, or the payload of a living node, leads to the node. -/
def Names (h : Heap) (owned : List Holding) (id : NodeId) : Prop :=
  .strong id ∈ owned ∨ (∃ v, .value v ∈ owned ∧ v.Names id) ∨
    ∃ other, (h.cell other).isAlive ∧ (h.payload other).Names id

/-- Elements that add nothing may be left out of a count. -/
theorem count_flatMap_filter {α : Type} (p : α → Bool) (f : α → List Handle) (x : Handle)
    (xs : List α) (hz : ∀ a ∈ xs, p a = false → f a = []) :
    ((xs.filter p).flatMap f).count x = (xs.map fun a => (f a).count x).sum := by
  induction xs with
  | nil => rfl
  | cons a xs ih =>
    have ih := ih fun b hb => hz b (List.mem_cons_of_mem _ hb)
    rw [List.map_cons, List.sum_cons, ← ih]
    cases hp : p a with
    | true => rw [List.filter_cons_of_pos hp, List.flatMap_cons, List.count_append]
    | false =>
      rw [List.filter_cons_of_neg (by simp [hp]), hz a List.mem_cons_self hp, List.count_nil,
        Nat.zero_add]

theorem sum_range_eq (n : ℕ) (f : ℕ → ℕ) :
    ∑ i ∈ Finset.range n, f i = ((List.range n).map f).sum := rfl

namespace Sound

/-- Nothing is lost by looking at living nodes and shared trees alone. -/
theorem count_handlesAround (hs : h.Sound o) (x : Handle) :
    (h.handlesAround o).count x = h.inside x + (Holding.handlesAll o).count x := by
  have hp : (h.livingNodes.flatMap fun id => (h.payload id).handles).count x = h.inPayloads x := by
    rw [livingNodes, count_flatMap_filter, List.map_map, inPayloads, sum_range_eq]
    · rfl
    · intro id _ hz
      have hz : (h.cell id).strong = 0 := by simpa [Cell.isAlive] using hz
      rw [payload, hs.cleared id hz]
      rfl
  have ht : (h.sharedTrees.flatMap fun t => (h.tree t).handles).count x = h.inTrees x := by
    rw [sharedTrees, count_flatMap_filter, List.map_map, inTrees, sum_range_eq]
    · rfl
    · intro t _ hz
      have hz : (h.tree t).copies = 0 := by simpa using hz
      rw [Tree.handles, hs.felled t hz]
      rfl
  rw [handlesAround, List.count_append, List.count_append, hp, ht, inside]
  omega

theorem counter_eq (hs : h.Sound o) (x : Handle) :
    h.counter x = (h.handlesAround o).count x := by
  rw [hs.count_handlesAround]
  exact hs.counted x

theorem isAlive_iff_count (hs : h.Sound o) (id : NodeId) :
    (h.cell id).isAlive ↔ 1 ≤ (h.handlesAround o).count (.strong id) := by
  rw [isAlive_iff, ← hs.counter_eq]
  exact Nat.one_le_iff_ne_zero.symm

/-- The links in a value that is there lead to living nodes. -/
theorem isAlive_of_present (hs : h.Sound o) (hv : h.Present v) (hn : v.Names id) :
    (h.cell id).isAlive := by
  induction hn with
  | link => exact isAlive_iff.2 (hv.counted (.strong id) List.mem_cons_self)
  | item hm _ ih => exact ih (hv.item hm)
  | entry hm _ ih => exact ih (hs.present_entry hv hm)

theorem isAlive_of_names (hs : h.Sound o) (hn : h.Names o id) : (h.cell id).isAlive := by
  rcases hn with ho | ⟨v, ho, hn⟩ | ⟨other, -, hn⟩
  · exact isAlive_iff.2 (hs.counter_ne_zero_of_owned (x := .strong id)
      (List.mem_flatMap.2 ⟨_, ho, List.mem_cons_self⟩))
  · exact hs.isAlive_of_present (hs.present (.inl ho)) hn
  · exact hs.isAlive_of_present (hs.present (.inr (.inl ⟨other, rfl⟩))) hn

end Sound
end Heap

namespace Execution

/-- Counts are right at every moment, also in the middle of a release, when the tasks that remain
hold what is still to be let go of. -/
theorem Run.counts {past : List (Deed × Execution)} {e : Execution} (hr : Run past e) :
    (∀ id, (e.heap.cell id).isAlive →
      (e.heap.cell id).strong = (e.heap.handlesAround e.owned).count (.strong id) ∧
      (e.heap.cell id).weak = (e.heap.handlesAround e.owned).count (.weak id)) ∧
    (∀ id, (e.heap.cell id).isAlive ↔ 1 ≤ (e.heap.handlesAround e.owned).count (.strong id)) ∧
    (∀ t, (e.heap.tree t).copies = (e.heap.handlesAround e.owned).count (.tree t)) ∧
    (∀ v, e.heap.Stored e.owned v → e.heap.Agrees v) ∧
    (∀ id, e.heap.Names e.owned id → (e.heap.cell id).isAlive) := by
  have hs := hr.sound.heap
  refine ⟨fun id _ => ⟨?_, ?_⟩, hs.isAlive_iff_count, fun t => ?_, hs.agrees, fun id hn => ?_⟩
  · exact hs.counter_eq (.strong id)
  · exact hs.counter_eq (.weak id)
  · exact hs.counter_eq (.tree t)
  · exact hs.isAlive_of_names hn

/-- The node has a handle outside and one in its own payload. -/
theorem counts_selfLink : Run SelfLink.past SelfLink.now ∧
    (SelfLink.now.heap.cell ⟨1⟩).isAlive ∧
    2 = (SelfLink.now.heap.handlesAround SelfLink.now.owned).count (.strong ⟨1⟩) ∧
    SelfLink.now.heap.Names SelfLink.now.owned ⟨1⟩ := by
  have hn : SelfLink.now.heap.Names SelfLink.now.owned ⟨1⟩ := .inl List.mem_cons_self
  have ha := (Run.counts SelfLink.run).2.2.2.2 ⟨1⟩ hn
  exact ⟨SelfLink.run, ha, ((Run.counts SelfLink.run).1 ⟨1⟩ ha).1, hn⟩

end Execution
end GraphStack
