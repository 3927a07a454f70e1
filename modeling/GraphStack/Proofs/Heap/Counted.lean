import GraphStack.Proofs.Heap.Handles

/-!
# Counters through the operations of a heap

Each operation moves handles between the payloads, the trees and whoever holds them from outside.
The lemmas here say of each one that a heap whose counters were right still has right counters,
with what it took from the outside taken off the list and what it handed out put on it.
-/

namespace GraphStack.Heap

/-- Nothing that counters depend on has changed. -/
structure SameStore (h h' : Heap) : Prop where
  size : h'.cells.size = h.cells.size
  strong : ∀ id, (h'.cell id).strong = (h.cell id).strong
  weak : ∀ id, (h'.cell id).weak = (h.cell id).weak
  payload : ∀ id, (h'.cell id).payload = (h.cell id).payload
  trees : h'.trees = h.trees

variable {h h' : Heap} {id : NodeId} {t : MapId} {o : List Handle}

theorem SameStore.tree (hs : SameStore h h') (t : MapId) : h'.tree t = h.tree t := by
  simp only [Heap.tree, hs.trees]

theorem SameStore.trans {h'' : Heap} (hs : SameStore h h') (hs' : SameStore h' h'') :
    SameStore h h'' where
  size := hs'.size.trans hs.size
  strong id := (hs'.strong id).trans (hs.strong id)
  weak id := (hs'.weak id).trans (hs.weak id)
  payload id := (hs'.payload id).trans (hs.payload id)
  trees := hs'.trees.trans hs.trees

/-- A change of cells that leaves counts and payload alone. -/
theorem SameStore.modifyCell (h : Heap) (id : NodeId) {f : Cell → Cell}
    (hs : ∀ c, (f c).strong = c.strong) (hw : ∀ c, (f c).weak = c.weak)
    (hp : ∀ c, (f c).payload = c.payload) : SameStore h (h.modifyCell id f) where
  size := size_modifyCell f
  strong _ := cell_modifyCell_keeps (·.strong) hs
  weak _ := cell_modifyCell_keeps (·.weak) hw
  payload _ := cell_modifyCell_keeps (·.payload) hp
  trees := rfl

theorem sameStore_enter (h : Heap) (id : NodeId) : SameStore h (h.enter id) :=
  .modifyCell h id (fun _ => rfl) (fun _ => rfl) fun _ => rfl

theorem sameStore_leave (h : Heap) (id : NodeId) : SameStore h (h.leave id) :=
  .modifyCell h id (fun _ => rfl) (fun _ => rfl) fun _ => rfl

theorem sameStore_lend (h : Heap) (b : BudgetId) : SameStore h (h.lend b) :=
  ⟨rfl, fun _ => rfl, fun _ => rfl, fun _ => rfl, rfl⟩

theorem sameStore_giveBack (h : Heap) (b : BudgetId) : SameStore h (h.giveBack b) :=
  ⟨rfl, fun _ => rfl, fun _ => rfl, fun _ => rfl, rfl⟩

theorem sameStore_endLease (h : Heap) (id : NodeId) : SameStore h (h.endLease id) := by
  unfold endLease
  split
  · exact ⟨rfl, fun _ => rfl, fun _ => rfl, fun _ => rfl, rfl⟩
  · next b _ =>
    have hm : SameStore h (h.modifyCell id fun c => { c with lease := none }) :=
      .modifyCell h id (fun _ => rfl) (fun _ => rfl) fun _ => rfl
    exact hm.trans (sameStore_giveBack _ b)

theorem cell_endLease_keeps {α : Type} (p : Cell → α)
    (hp : ∀ c, p { c with lease := none } = p c) (h : Heap) (id id' : NodeId) :
    p ((h.endLease id).cell id') = p (h.cell id') := by
  unfold endLease
  split
  · rfl
  · exact cell_modifyCell_keeps p hp

theorem books_endLease (h : Heap) (id : NodeId) :
    (h.endLease id).budgets.size = h.budgets.size ∧ (h.endLease id).refusals = h.refusals := by
  unfold endLease
  split
  · exact ⟨rfl, rfl⟩
  · exact ⟨Array.size_modify, rfl⟩

theorem SameStore.counter (hs : SameStore h h') (x : Handle) : h'.counter x = h.counter x := by
  cases x with
  | strong id => exact hs.strong id
  | weak id => exact hs.weak id
  | tree t => exact congrArg Tree.copies (hs.tree t)

theorem SameStore.inside (hs : SameStore h h') (x : Handle) : h'.inside x = h.inside x :=
  inside_congr hs.size (by rw [hs.trees]) hs.payload (fun t => by rw [hs.tree]) x

namespace Counted

theorem sameStore (hc : h.Counted o) (hs : SameStore h h') : h'.Counted o := by
  intro x
  rw [hs.counter, hs.inside]
  exact hc x

theorem perm {o' : List Handle} (hc : h.Counted o) (hp : o.Perm o') : h.Counted o' := by
  intro x
  rw [hc x, hp.count_eq]

/-- A change of the two counts of one cell, with the same change of the list. -/
theorem modifyCell {o' : List Handle} {f : Cell → Cell} (hc : h.Counted o)
    (hb : id.number < h.cells.size) (hp : ∀ c, (f c).payload = c.payload)
    (hs : (f (h.cell id)).strong + o.count (.strong id) =
      (h.cell id).strong + o'.count (.strong id))
    (hw : (f (h.cell id)).weak + o.count (.weak id) = (h.cell id).weak + o'.count (.weak id))
    (ho : ∀ x, x ≠ .strong id → x ≠ .weak id → o'.count x = o.count x) :
    (h.modifyCell id f).Counted o' := by
  intro x
  have hx := hc x
  rw [inside_modifyCell hp]
  cases x with
  | strong id' =>
    by_cases he : id = id'
    · subst he
      simp only [counter, cell_modifyCell_self f hb] at hx ⊢
      omega
    · have hne : Handle.strong id' ≠ .strong id := fun hh => he (Handle.strong.inj hh).symm
      simp only [counter, cell_modifyCell_of_ne f he, ho _ hne (by simp)] at hx ⊢
      exact hx
  | weak id' =>
    by_cases he : id = id'
    · subst he
      simp only [counter, cell_modifyCell_self f hb] at hx ⊢
      omega
    · have hne : Handle.weak id' ≠ .weak id := fun hh => he (Handle.weak.inj hh).symm
      simp only [counter, cell_modifyCell_of_ne f he, ho _ (by simp) hne] at hx ⊢
      exact hx
  | tree t =>
    rw [ho _ (by simp) (by simp)]
    exact hx

/-- A change of the copies of one tree, with the same change of the list. -/
theorem modifyTree {o' : List Handle} {f : Tree → Tree} (hc : h.Counted o)
    (hb : t.index < h.trees.size) (hp : ∀ c, (f c).entries = c.entries)
    (hs : (f (h.tree t)).copies + o.count (.tree t) = (h.tree t).copies + o'.count (.tree t))
    (ho : ∀ x, x ≠ .tree t → o'.count x = o.count x) : (h.modifyTree t f).Counted o' := by
  intro x
  have hx := hc x
  rw [inside_modifyTree hp]
  cases x with
  | tree t' =>
    by_cases he : t = t'
    · subst he
      simp only [counter, tree_modifyTree_self f hb] at hx ⊢
      omega
    · have hne : Handle.tree t' ≠ .tree t := fun hh => he (Handle.tree.inj hh).symm
      have ht : (h.modifyTree t f).tree t' = h.tree t' := by
        rw [tree_modifyTree, if_neg fun hh => he hh.1]
      simp only [counter, ht, ho _ hne] at hx ⊢
      exact hx
  | strong id =>
    rw [ho _ (by simp)]
    exact hx
  | weak id =>
    rw [ho _ (by simp)]
    exact hx

theorem addStrong (hc : h.Counted o) (hs : (h.cell id).strong ≠ 0) :
    (h.addStrong id).Counted (.strong id :: o) := by
  apply hc.modifyCell (built_of_strong hs)
  · intro _
    rfl
  · simp only [List.count_cons_self]
    omega
  · simp
  · intro x hx _
    exact List.count_cons_of_ne hx.symm

theorem dropStrong (hc : h.Counted (.strong id :: o)) : (h.dropStrong id).Counted o := by
  have hx := hc (.strong id)
  simp only [counter, List.count_cons_self] at hx
  have hb : id.number < h.cells.size := built_of_strong (by omega)
  apply hc.modifyCell hb
  · intro _
    rfl
  · simp only [List.count_cons_self]
    omega
  · simp
  · intro x hx _
    exact (List.count_cons_of_ne hx.symm).symm

theorem addWeak (hc : h.Counted o) (hb : id.number < h.cells.size) :
    (h.addWeak id).Counted (.weak id :: o) := by
  apply hc.modifyCell hb
  · intro _
    rfl
  · simp
  · simp only [List.count_cons_self]
    omega
  · intro x _ hx
    exact List.count_cons_of_ne hx.symm

theorem dropWeak (hc : h.Counted (.weak id :: o)) : (h.dropWeak id).Counted o := by
  have hx := hc (.weak id)
  simp only [counter, List.count_cons_self] at hx
  have hb : id.number < h.cells.size := built_of_weak (by omega)
  apply hc.modifyCell hb
  · intro _
    rfl
  · simp
  · simp only [List.count_cons_self]
    omega
  · intro x _ hx
    exact (List.count_cons_of_ne hx.symm).symm

theorem addCopy (hc : h.Counted o) (hs : (h.tree t).copies ≠ 0) :
    (h.addCopy t).Counted (.tree t :: o) := by
  apply hc.modifyTree (planted_of_copies hs)
  · intro _
    rfl
  · simp only [List.count_cons_self]
    omega
  · intro x hx
    exact List.count_cons_of_ne hx.symm

theorem dropCopy (hc : h.Counted (.tree t :: o)) : (h.dropCopy t).Counted o := by
  have hx := hc (.tree t)
  simp only [counter, List.count_cons_self] at hx
  have hb : t.index < h.trees.size := planted_of_copies (by omega)
  apply hc.modifyTree hb
  · intro _
    rfl
  · simp only [List.count_cons_self]
    omega
  · intro x hx
    exact (List.count_cons_of_ne hx.symm).symm

/-- A payload is exchanged for another. -/
theorem setPayload {v : Value} (hc : h.Counted (v.handles ++ o)) (hb : id.number < h.cells.size) :
    (h.setPayload id v).Counted ((h.cell id).payload.handles ++ o) := by
  intro x
  have hi := inside_setPayload hb v x
  have hx := hc x
  have hk : (h.setPayload id v).counter x = h.counter x := by
    cases x with
    | strong id' => exact strong_setPayload h id v id'
    | weak id' => exact cell_modifyCell_keeps (·.weak) fun _ => rfl
    | tree t => rfl
  rw [List.count_append] at hx ⊢
  omega

theorem fell (hc : h.Counted o) : (h.fell t).Counted ((h.tree t).handles ++ o) := by
  intro x
  have hi := inside_fell (h := h) t x
  have hx := hc x
  have hk : (h.fell t).counter x = h.counter x := by
    cases x with
    | strong id => rfl
    | weak id => rfl
    | tree t' => exact tree_modifyTree_keeps (·.copies) fun _ => rfl
  rw [List.count_append]
  omega

theorem build {v : Value} (hc : h.Counted (v.handles ++ o)) (model : Model)
    (lease : Option BudgetId) :
    (h.build model v lease).Counted (.strong h.nextNode :: o) := by
  intro x
  have hx := hc x
  have hv : h.cell h.nextNode = .vacant := cell_eq_vacant (Nat.lt_irrefl _)
  rw [inside_build, List.count_cons]
  rw [List.count_append] at hx
  cases x with
  | strong id =>
    by_cases he : id = h.nextNode
    · subst he
      simp only [counter, cell_build, if_true, hv, Cell.vacant, beq_self_eq_true] at hx ⊢
      omega
    · have hne : h.nextNode ≠ id := fun hh => he hh.symm
      simp only [counter, cell_build, he, if_false, beq_iff_eq, Handle.strong.injEq, hne] at hx ⊢
      omega
  | weak id =>
    by_cases he : id = h.nextNode
    · subst he
      simp only [counter, cell_build, if_true, hv, Cell.vacant, beq_iff_eq, reduceCtorEq,
        if_false] at hx ⊢
      omega
    · simp only [counter, cell_build, he, if_false, beq_iff_eq, reduceCtorEq] at hx ⊢
      omega
  | tree t =>
    have ht : (h.build model v lease).counter (.tree t) = h.counter (.tree t) := rfl
    simp only [ht, beq_iff_eq, reduceCtorEq, if_false]
    omega

theorem plant {es : List (String × Value)}
    (hc : h.Counted (Value.handlesAll (es.map (·.2)) ++ o)) :
    (h.plant es).Counted (.tree h.nextTree :: o) := by
  intro x
  have hx := hc x
  have hv : h.tree h.nextTree = ⟨0, []⟩ := tree_eq_vacant (Nat.lt_irrefl _)
  rw [inside_plant, List.count_cons]
  rw [List.count_append] at hx
  cases x with
  | tree t =>
    by_cases he : t = h.nextTree
    · subst he
      simp only [counter, tree_plant, if_true, hv, beq_self_eq_true] at hx ⊢
      omega
    · have hne : h.nextTree ≠ t := fun hh => he hh.symm
      simp only [counter, tree_plant, he, if_false, beq_iff_eq, Handle.tree.injEq, hne] at hx ⊢
      omega
  | strong id =>
    have ht : (h.plant es).counter (.strong id) = h.counter (.strong id) := rfl
    simp only [ht, beq_iff_eq, reduceCtorEq, if_false]
    omega
  | weak id =>
    have ht : (h.plant es).counter (.weak id) = h.counter (.weak id) := rfl
    simp only [ht, beq_iff_eq, reduceCtorEq, if_false]
    omega

end Counted
end GraphStack.Heap
