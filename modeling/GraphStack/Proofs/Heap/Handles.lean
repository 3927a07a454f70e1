import GraphStack.Session.Basic
import Mathlib

/-!
# Handles and how many there are

A value holds handles: one to each node it links to and one to the tree of each map in it. What a
map holds is held by its tree, once for all copies of the map. `Heap.inside` counts the handles in
the payloads and the trees of a heap, `Holding.count` those that somebody outside holds, and
`Heap.Counted` says that every counter of the heap is the sum of the two.
-/

open scoped BigOperators

namespace GraphStack

inductive Handle
  | strong (id : NodeId)
  | weak (id : NodeId)
  | tree (id : MapId)
  deriving DecidableEq

mutual
def Value.handles : Value → List Handle
  | .list items => Value.handlesAll items
  | .map tree _ => [.tree tree]
  | .node id => [.strong id]
  | _ => []

def Value.handlesAll : List Value → List Handle
  | [] => []
  | v :: vs => v.handles ++ Value.handlesAll vs
end

def Holding.handles : Holding → List Handle
  | .strong id => [.strong id]
  | .weak id => [.weak id]
  | .value v => v.handles

def Tree.handles (t : Tree) : List Handle := Value.handlesAll (t.entries.map (·.2))

theorem Value.handlesAll_eq_flatMap (vs : List Value) :
    Value.handlesAll vs = vs.flatMap Value.handles := by
  induction vs with
  | nil => rfl
  | cons v vs ih => rw [Value.handlesAll, ih, List.flatMap_cons]

/-- The handles of everything in a list of holdings. -/
def Holding.handlesAll (xs : List Holding) : List Handle := xs.flatMap Holding.handles

namespace Holding

@[simp] theorem handlesAll_nil : handlesAll [] = [] := rfl

@[simp] theorem handlesAll_cons (x : Holding) (xs : List Holding) :
    handlesAll (x :: xs) = x.handles ++ handlesAll xs := rfl

@[simp] theorem handlesAll_append (xs ys : List Holding) :
    handlesAll (xs ++ ys) = handlesAll xs ++ handlesAll ys := List.flatMap_append

theorem handlesAll_values (vs : List Value) :
    handlesAll (vs.map .value) = Value.handlesAll vs := by
  rw [Value.handlesAll_eq_flatMap, handlesAll, List.flatMap_map]
  rfl

theorem handlesAll_perm {xs ys : List Holding} (hp : xs.Perm ys) :
    (handlesAll xs).Perm (handlesAll ys) := hp.flatMap_right _

end Holding

namespace Heap

/-- How many handles of a kind the heap believes to exist. -/
def counter (h : Heap) : Handle → Nat
  | .strong id => (h.cell id).strong
  | .weak id => (h.cell id).weak
  | .tree id => (h.tree id).copies

/-- How often a handle occurs in the payloads of all nodes. -/
def inPayloads (h : Heap) (x : Handle) : Nat :=
  ∑ n ∈ Finset.range h.cells.size, (h.cell ⟨n⟩).payload.handles.count x

/-- How often a handle occurs among the entries of all trees. -/
def inTrees (h : Heap) (x : Handle) : Nat :=
  ∑ n ∈ Finset.range h.trees.size, (h.tree ⟨n⟩).handles.count x

def inside (h : Heap) (x : Handle) : Nat := h.inPayloads x + h.inTrees x

/-- Every counter is the number of handles in the heap and of those in the given list. -/
def Counted (h : Heap) (owned : List Handle) : Prop :=
  ∀ x, h.counter x = h.inside x + owned.count x

/-! ## One cell, one tree -/

variable {h : Heap} {id id' : NodeId} {t t' : MapId}

theorem cell_modifyCell (f : Cell → Cell) :
    (h.modifyCell id f).cell id' =
      if id = id' ∧ id.number < h.cells.size then f (h.cell id) else h.cell id' := by
  have hid : id.number = id'.number ↔ id = id' := by cases id; cases id'; simp
  simp only [cell, modifyCell, Array.getD_eq_getD_getElem?, Array.getElem?_modify, hid]
  by_cases he : id = id'
  · subst he
    by_cases hb : id.number < h.cells.size
    · simp [hb]
    · simp [hb]
  · simp [he]

theorem cell_modifyCell_self (f : Cell → Cell) (hb : id.number < h.cells.size) :
    (h.modifyCell id f).cell id = f (h.cell id) := by
  rw [cell_modifyCell, if_pos ⟨rfl, hb⟩]

theorem cell_modifyCell_of_ne (f : Cell → Cell) (hn : id ≠ id') :
    (h.modifyCell id f).cell id' = h.cell id' := by
  rw [cell_modifyCell, if_neg (fun hc => hn hc.1)]

/-- What a change of cells keeps, it keeps in every cell. -/
theorem cell_modifyCell_keeps {α : Type} (p : Cell → α) {f : Cell → Cell}
    (hf : ∀ c, p (f c) = p c) : p ((h.modifyCell id f).cell id') = p (h.cell id') := by
  rw [cell_modifyCell]
  split
  · next hc => rw [hf, hc.1]
  · rfl

theorem strong_setPayload (h : Heap) (id : NodeId) (v : Value) (id' : NodeId) :
    ((h.setPayload id v).cell id').strong = (h.cell id').strong :=
  cell_modifyCell_keeps (·.strong) fun _ => rfl

theorem payload_dropStrong (h : Heap) (id id' : NodeId) :
    ((h.dropStrong id).cell id').payload = (h.cell id').payload :=
  cell_modifyCell_keeps (·.payload) fun _ => rfl

theorem tree_modifyTree (f : Tree → Tree) :
    (h.modifyTree t f).tree t' =
      if t = t' ∧ t.index < h.trees.size then f (h.tree t) else h.tree t' := by
  have hid : t.index = t'.index ↔ t = t' := by cases t; cases t'; simp
  simp only [tree, modifyTree, Array.getD_eq_getD_getElem?, Array.getElem?_modify, hid]
  by_cases he : t = t'
  · subst he
    by_cases hb : t.index < h.trees.size
    · simp [hb]
    · simp [hb]
  · simp [he]

theorem tree_modifyTree_self (f : Tree → Tree) (hb : t.index < h.trees.size) :
    (h.modifyTree t f).tree t = f (h.tree t) := by
  rw [tree_modifyTree, if_pos ⟨rfl, hb⟩]

theorem tree_modifyTree_keeps {α : Type} (p : Tree → α) {f : Tree → Tree}
    (hf : ∀ c, p (f c) = p c) : p ((h.modifyTree t f).tree t') = p (h.tree t') := by
  rw [tree_modifyTree]
  split
  · next hc => rw [hf, hc.1]
  · rfl

@[simp] theorem size_modifyCell (f : Cell → Cell) :
    (h.modifyCell id f).cells.size = h.cells.size := Array.size_modify

@[simp] theorem size_modifyTree (f : Tree → Tree) :
    (h.modifyTree t f).trees.size = h.trees.size := Array.size_modify

theorem cell_eq_vacant (hb : ¬ id.number < h.cells.size) : h.cell id = .vacant := by
  simp [cell, Array.getD_eq_getD_getElem?, hb]

theorem tree_eq_vacant (hb : ¬ t.index < h.trees.size) : h.tree t = ⟨0, []⟩ := by
  simp [tree, Array.getD_eq_getD_getElem?, hb]

theorem isAlive_iff : (h.cell id).isAlive ↔ (h.cell id).strong ≠ 0 := by
  simp [Cell.isAlive]

theorem built_of_strong (hs : (h.cell id).strong ≠ 0) : id.number < h.cells.size := by
  by_contra hb
  exact hs (by rw [cell_eq_vacant hb]; rfl)

theorem built_of_weak (hs : (h.cell id).weak ≠ 0) : id.number < h.cells.size := by
  by_contra hb
  exact hs (by rw [cell_eq_vacant hb]; rfl)

theorem planted_of_copies (hs : (h.tree t).copies ≠ 0) : t.index < h.trees.size := by
  by_contra hb
  exact hs (by rw [tree_eq_vacant hb])

/-! ## How the numbers inside change -/

theorem sum_range_change {n i : ℕ} {f g : ℕ → ℕ} (hi : i < n) (hfg : ∀ j, j ≠ i → g j = f j) :
    ∑ j ∈ Finset.range n, g j + f i = ∑ j ∈ Finset.range n, f j + g i := by
  have hm : i ∈ Finset.range n := Finset.mem_range.2 hi
  have he : ∑ j ∈ (Finset.range n).erase i, g j = ∑ j ∈ (Finset.range n).erase i, f j :=
    Finset.sum_congr rfl fun j hj => hfg j (Finset.ne_of_mem_erase hj)
  rw [← Finset.add_sum_erase _ f hm, ← Finset.add_sum_erase _ g hm, he]
  omega

/-- The numbers inside depend on nothing but payloads and entries. -/
theorem inside_congr {h h' : Heap} (hc : h'.cells.size = h.cells.size)
    (ht : h'.trees.size = h.trees.size)
    (hp : ∀ id, (h'.cell id).payload = (h.cell id).payload)
    (he : ∀ t, (h'.tree t).entries = (h.tree t).entries) (x : Handle) :
    h'.inside x = h.inside x := by
  simp only [inside, inPayloads, inTrees, Tree.handles, hc, ht, hp, he]

theorem inside_modifyCell {f : Cell → Cell} (hp : ∀ c, (f c).payload = c.payload) (x : Handle) :
    (h.modifyCell id f).inside x = h.inside x :=
  inside_congr (size_modifyCell f) rfl (fun _ => cell_modifyCell_keeps (·.payload) hp)
    (fun _ => rfl) x

theorem inside_modifyTree {f : Tree → Tree} (hp : ∀ c, (f c).entries = c.entries) (x : Handle) :
    (h.modifyTree t f).inside x = h.inside x := by
  have hz : (h.modifyTree t f).cells.size = h.cells.size := rfl
  exact inside_congr hz (size_modifyTree f) (fun _ => rfl)
    (fun _ => tree_modifyTree_keeps (·.entries) hp) x

theorem inside_setPayload (hb : id.number < h.cells.size) (v : Value) (x : Handle) :
    (h.setPayload id v).inside x + (h.cell id).payload.handles.count x =
      h.inside x + v.handles.count x := by
  have hs : ((h.setPayload id v).cell id).payload = v := by
    rw [setPayload, cell_modifyCell_self _ hb]
  have hn (n : ℕ) (hne : n ≠ id.number) :
      ((h.setPayload id v).cell ⟨n⟩).payload = (h.cell ⟨n⟩).payload := by
    rw [setPayload, cell_modifyCell_of_ne _ (by rintro rfl; exact hne rfl)]
  have hc : (h.setPayload id v).inPayloads x + (h.cell id).payload.handles.count x =
      h.inPayloads x + v.handles.count x := by
    have := sum_range_change (f := fun n => (h.cell ⟨n⟩).payload.handles.count x)
      (g := fun n => ((h.setPayload id v).cell ⟨n⟩).payload.handles.count x) hb
      (fun n hne => by rw [hn n hne])
    rw [hs] at this
    simpa only [inPayloads, setPayload, size_modifyCell] using this
  have ht : (h.setPayload id v).inTrees x = h.inTrees x := rfl
  simp only [inside]
  omega

theorem inside_fell (t : MapId) (x : Handle) :
    (h.fell t).inside x + (h.tree t).handles.count x = h.inside x := by
  have hp : (h.fell t).inPayloads x = h.inPayloads x := rfl
  suffices ht : (h.fell t).inTrees x + (h.tree t).handles.count x = h.inTrees x by
    simp only [inside]
    omega
  by_cases hb : t.index < h.trees.size
  · have hs : (h.fell t).tree t = { h.tree t with entries := [] } := tree_modifyTree_self _ hb
    have hn (n : ℕ) (hne : n ≠ t.index) : (h.fell t).tree ⟨n⟩ = h.tree ⟨n⟩ := by
      rw [fell, tree_modifyTree, if_neg (by rintro ⟨rfl, -⟩; exact hne rfl)]
    have := sum_range_change (f := fun n => (h.tree ⟨n⟩).handles.count x)
      (g := fun n => ((h.fell t).tree ⟨n⟩).handles.count x) hb (fun n hne => by rw [hn n hne])
    rw [hs] at this
    simpa only [inTrees, fell, size_modifyTree, Tree.handles, List.map_nil, Value.handlesAll,
      List.count_nil, Nat.add_zero] using this
  · have he (n : ℕ) : (h.fell t).tree ⟨n⟩ = h.tree ⟨n⟩ := by
      rw [fell, tree_modifyTree, if_neg fun hc => hb hc.2]
    have hz : (h.tree t).handles.count x = 0 := by rw [tree_eq_vacant hb]; rfl
    rw [hz, Nat.add_zero]
    simp only [inTrees, he]
    rw [fell, size_modifyTree]

theorem cell_build (model : Model) (v : Value) (lease : Option BudgetId) (id : NodeId) :
    (h.build model v lease).cell id =
      if id = h.nextNode then ⟨model, 1, 0, 0, v, lease⟩ else h.cell id := by
  have hid : id.number = h.cells.size ↔ id = h.nextNode := by cases id; simp [nextNode]
  simp only [cell, build, Array.getD_eq_getD_getElem?, Array.getElem?_push, hid]
  split <;> rfl

theorem tree_plant (es : List (String × Value)) (t : MapId) :
    (h.plant es).tree t = if t = h.nextTree then ⟨1, es⟩ else h.tree t := by
  have hid : t.index = h.trees.size ↔ t = h.nextTree := by cases t; simp [nextTree]
  simp only [tree, plant, Array.getD_eq_getD_getElem?, Array.getElem?_push, hid]
  split <;> rfl

theorem inside_build (model : Model) (v : Value) (lease : Option BudgetId) (x : Handle) :
    (h.build model v lease).inside x = h.inside x + v.handles.count x := by
  have ht : (h.build model v lease).inTrees x = h.inTrees x := rfl
  have hz : (h.build model v lease).cells.size = h.cells.size + 1 := Array.size_push ..
  have hn : ∀ n ∈ Finset.range h.cells.size,
      ((h.build model v lease).cell ⟨n⟩).payload.handles.count x =
        (h.cell ⟨n⟩).payload.handles.count x := by
    intro n hn
    have hne : (⟨n⟩ : NodeId) ≠ h.nextNode := by
      intro he
      simp [nextNode] at he
      simp [he] at hn
    rw [cell_build, if_neg hne]
  have hl : ((h.build model v lease).cell ⟨h.cells.size⟩).payload = v := by
    simp [cell_build, nextNode]
  simp only [inside, inPayloads, hz, Finset.sum_range_succ, Finset.sum_congr rfl hn, hl, ht]
  omega

theorem inside_plant (es : List (String × Value)) (x : Handle) :
    (h.plant es).inside x = h.inside x + (Value.handlesAll (es.map (·.2))).count x := by
  have hp : (h.plant es).inPayloads x = h.inPayloads x := rfl
  have hz : (h.plant es).trees.size = h.trees.size + 1 := Array.size_push ..
  have hn : ∀ n ∈ Finset.range h.trees.size,
      ((h.plant es).tree ⟨n⟩).handles.count x = (h.tree ⟨n⟩).handles.count x := by
    intro n hn
    have hne : (⟨n⟩ : MapId) ≠ h.nextTree := by
      intro he
      simp [nextTree] at he
      simp [he] at hn
    rw [tree_plant, if_neg hne]
  have hl : ((h.plant es).tree ⟨h.trees.size⟩).handles = Value.handlesAll (es.map (·.2)) := by
    simp [tree_plant, nextTree, Tree.handles]
  simp only [inside, inTrees, hz, Finset.sum_range_succ, Finset.sum_congr rfl hn, hl, hp]
  omega

/-- A handle in a payload is inside the heap. -/
theorem count_payload_le_inside (id : NodeId) (x : Handle) :
    (h.cell id).payload.handles.count x ≤ h.inside x := by
  by_cases hb : id.number < h.cells.size
  · have hm : id.number ∈ Finset.range h.cells.size := Finset.mem_range.2 hb
    have := Finset.single_le_sum
      (f := fun n => (h.cell ⟨n⟩).payload.handles.count x) (fun _ _ => Nat.zero_le _) hm
    exact this.trans (Nat.le_add_right _ _)
  · rw [cell_eq_vacant hb]
    exact Nat.zero_le _

/-- A handle among the entries of a tree is inside the heap. -/
theorem count_tree_le_inside (t : MapId) (x : Handle) :
    (h.tree t).handles.count x ≤ h.inside x := by
  by_cases hb : t.index < h.trees.size
  · have hm : t.index ∈ Finset.range h.trees.size := Finset.mem_range.2 hb
    have := Finset.single_le_sum
      (f := fun n => (h.tree ⟨n⟩).handles.count x) (fun _ _ => Nat.zero_le _) hm
    exact this.trans (Nat.le_add_left _ _)
  · rw [tree_eq_vacant hb]
    exact Nat.zero_le _

/-- What is inside the heap is in a payload or among the entries of a tree. -/
theorem exists_of_inside {x : Handle} (hx : h.inside x ≠ 0) :
    (∃ id, x ∈ (h.cell id).payload.handles) ∨ ∃ t, x ∈ (h.tree t).handles := by
  by_contra! hno
  apply hx
  have hp : h.inPayloads x = 0 :=
    Finset.sum_eq_zero fun n _ => List.count_eq_zero.2 (hno.1 ⟨n⟩)
  have ht : h.inTrees x = 0 := Finset.sum_eq_zero fun n _ => List.count_eq_zero.2 (hno.2 ⟨n⟩)
  rw [inside, hp, ht]

end Heap
end GraphStack
