import GraphStack.Proofs.Heap.Counted

/-!
# Sound heaps

A heap is sound for a list of holdings if its counters are the numbers of handles in it and in the
list, if what nobody holds is empty, and if every map that is stored somewhere has the entries of
its tree. `Heap.Sound.perform` shows that one task of a release keeps this, for the things that the
remaining tasks are going to release together with any others.
-/

namespace GraphStack

namespace Value

mutual
/-- The maps of a value that are not inside other maps, each with its tree. -/
def maps : Value → List (MapId × List (String × Value))
  | .list items => mapsAll items
  | .map tree entries => [(tree, entries)]
  | _ => []

def mapsAll : List Value → List (MapId × List (String × Value))
  | [] => []
  | v :: vs => v.maps ++ mapsAll vs
end

theorem mem_mapsAll {m : MapId × List (String × Value)} {vs : List Value} :
    m ∈ mapsAll vs ↔ ∃ v ∈ vs, m ∈ v.maps := by
  induction vs with
  | nil => simp [mapsAll]
  | cons v vs ih => simp [mapsAll, ih]

theorem mem_handlesAll {x : Handle} {vs : List Value} :
    x ∈ handlesAll vs ↔ ∃ v ∈ vs, x ∈ v.handles := by
  simp [handlesAll_eq_flatMap]

mutual
theorem tree_mem_handles {m : MapId × List (String × Value)} :
    ∀ {v : Value}, m ∈ v.maps → .tree m.1 ∈ v.handles
  | .list _, hm => tree_mem_handlesAll hm
  | .map tree entries, hm => by
    rw [List.mem_singleton.1 hm]
    exact List.mem_singleton.2 rfl

theorem tree_mem_handlesAll {m : MapId × List (String × Value)} :
    ∀ {vs : List Value}, m ∈ mapsAll vs → .tree m.1 ∈ handlesAll vs
  | v :: vs, hm => by
    rw [handlesAll, List.mem_append]
    exact (List.mem_append.1 hm).imp tree_mem_handles tree_mem_handlesAll
end

end Value

namespace Heap

/-- The maps of a value have the entries of their trees. -/
def Agrees (h : Heap) (v : Value) : Prop := ∀ m ∈ v.maps, (h.tree m.1).entries = m.2

/-- A value that is held, is a payload or stands in a tree. -/
def Stored (h : Heap) (owned : List Holding) (v : Value) : Prop :=
  .value v ∈ owned ∨ (∃ id, (h.cell id).payload = v) ∨ ∃ t k, (k, v) ∈ (h.tree t).entries

structure Sound (h : Heap) (owned : List Holding) : Prop where
  counted : h.Counted (Holding.handlesAll owned)
  cleared : ∀ id, (h.cell id).strong = 0 → (h.cell id).payload = .nil
  felled : ∀ t, (h.tree t).copies = 0 → (h.tree t).entries = []
  agrees : ∀ v, h.Stored owned v → h.Agrees v

theorem cell_empty (id : NodeId) : empty.cell id = .vacant := by
  by_cases hb : id.number < empty.cells.size
  · have hz : id.number = 0 := by simpa [empty] using hb
    simp [Heap.cell, empty, hz]
  · exact cell_eq_vacant hb

theorem tree_empty (t : MapId) : empty.tree t = ⟨0, []⟩ := tree_eq_vacant (by simp [empty])

theorem sound_empty : empty.Sound [] where
  counted x := by
    have hi : empty.inside x = 0 := by
      simp only [inside, inPayloads, inTrees, cell_empty, tree_empty]
      rfl
    rw [hi]
    cases x <;> simp [counter, cell_empty, tree_empty, Cell.vacant]
  cleared id _ := by rw [cell_empty]; rfl
  felled t _ := by rw [tree_empty]
  agrees := by
    rintro v (hv | ⟨id, rfl⟩ | ⟨t, k, hv⟩)
    · cases hv
    · simp [Agrees, cell_empty, Cell.vacant, Value.maps]
    · rw [tree_empty] at hv
      cases hv

variable {h h' : Heap} {id : NodeId} {t : MapId} {o o' : List Holding} {v : Value}

theorem Agrees.congr (ha : h.Agrees v) (he : ∀ t, (h'.tree t).entries = (h.tree t).entries) :
    h'.Agrees v := fun m hm => (he m.1).trans (ha m hm)

theorem payload_setPayload (hb : id.number < h.cells.size) :
    ((h.setPayload id v).cell id).payload = v := by
  rw [setPayload, cell_modifyCell_self _ hb]

theorem payload_setPayload_of_ne {id' : NodeId} (hn : id ≠ id') :
    ((h.setPayload id v).cell id').payload = (h.cell id').payload := by
  rw [setPayload, cell_modifyCell_of_ne _ hn]

theorem setPayload_dropStrong (h : Heap) (id : NodeId) (v : Value) :
    (h.dropStrong id).setPayload id v = (h.setPayload id v).dropStrong id := by
  simp only [Heap.dropStrong, Heap.setPayload, Heap.modifyCell]
  congr 1
  ext i
  · simp
  · simp [Array.getElem_modify]
    split <;> rfl

theorem mem_handlesAll_of_value (hv : .value v ∈ o) {x : Handle} (hx : x ∈ v.handles) :
    x ∈ Holding.handlesAll o := List.mem_flatMap.2 ⟨_, hv, hx⟩

/-- The handles in a stored value are among those that are counted. -/
theorem Stored.count_pos (hv : h.Stored o v) {x : Handle} (hx : x ∈ v.handles) :
    0 < h.inside x + (Holding.handlesAll o).count x := by
  rcases hv with hv | ⟨id, rfl⟩ | ⟨t, k, hv⟩
  · have : 0 < (Holding.handlesAll o).count x :=
      List.count_pos_iff.2 (mem_handlesAll_of_value hv hx)
    omega
  · have h1 := count_payload_le_inside (h := h) id x
    have h2 : 0 < (h.cell id).payload.handles.count x := List.count_pos_iff.2 hx
    omega
  · have h1 := count_tree_le_inside (h := h) t x
    have h2 : 0 < (h.tree t).handles.count x := by
      refine List.count_pos_iff.2 (Value.mem_handlesAll.2 ⟨v, ?_, hx⟩)
      exact List.mem_map.2 ⟨(k, v), hv, rfl⟩
    omega

/-- A tree that loses its last copy is bare, and no other tree changes. -/
theorem tree_fell_dropCopy (hc : (h.tree t).copies = 1) (t' : MapId) :
    ((h.dropCopy t).fell t).tree t' = if t = t' then ⟨0, []⟩ else h.tree t' := by
  have hb : t.index < h.trees.size := planted_of_copies (by omega)
  have hb' : t.index < (h.dropCopy t).trees.size := by rwa [dropCopy, size_modifyTree]
  rw [fell, tree_modifyTree]
  by_cases ht : t = t'
  · subst ht
    have hd : (h.dropCopy t).tree t = ⟨0, (h.tree t).entries⟩ := by
      rw [dropCopy, tree_modifyTree_self _ hb, hc]
    simp only [hb', hd, and_self, if_true]
  · rw [if_neg fun hi => ht hi.1, if_neg ht, dropCopy, tree_modifyTree, if_neg fun hi => ht hi.1]

theorem entries_dropCopy (h : Heap) (t t' : MapId) :
    ((h.dropCopy t).tree t').entries = (h.tree t').entries :=
  tree_modifyTree_keeps (·.entries) fun _ => rfl

theorem entries_addCopy (h : Heap) (t t' : MapId) :
    ((h.addCopy t).tree t').entries = (h.tree t').entries :=
  tree_modifyTree_keeps (·.entries) fun _ => rfl

namespace Sound

/-- Every handle in a stored value is counted. -/
theorem counter_ne_zero (hs : h.Sound o) (hv : h.Stored o v) {x : Handle} (hx : x ∈ v.handles) :
    h.counter x ≠ 0 := by
  have hc := hs.counted x
  have := hv.count_pos hx
  omega

theorem counter_ne_zero_of_owned (hs : h.Sound o) {x : Handle}
    (hx : x ∈ Holding.handlesAll o) : h.counter x ≠ 0 := by
  have hc := hs.counted x
  have : 0 < (Holding.handlesAll o).count x := List.count_pos_iff.2 hx
  omega

/-- Where a list has the only handle of a kind, nothing else has one. -/
theorem last {x : Handle} (hs : h.Sound (o ++ o')) (hx : x ∈ Holding.handlesAll o)
    (h1 : h.counter x = 1) : h.inside x = 0 ∧ x ∉ Holding.handlesAll o' := by
  have hc := hs.counted x
  have hpos : 0 < (Holding.handlesAll o).count x := List.count_pos_iff.2 hx
  rw [Holding.handlesAll_append, List.count_append] at hc
  exact ⟨by omega, List.count_eq_zero.1 (by omega)⟩

/-! ## Other lists of the same handles -/

theorem regroup (hs : h.Sound o) (hp : (Holding.handlesAll o).Perm (Holding.handlesAll o'))
    (hv : ∀ v, .value v ∈ o' → h.Agrees v) : h.Sound o' where
  counted := hs.counted.perm hp
  cleared := hs.cleared
  felled := hs.felled
  agrees := by
    rintro v (hm | hm)
    · exact hv v hm
    · exact hs.agrees v (.inr hm)

theorem perm (hs : h.Sound o) (hp : o.Perm o') : h.Sound o' :=
  hs.regroup (Holding.handlesAll_perm hp) fun v hv => hs.agrees v (.inl (hp.mem_iff.2 hv))

theorem sameStore (hs : h.Sound o) (hh : SameStore h h') : h'.Sound o where
  counted := hs.counted.sameStore hh
  cleared id hz := by
    rw [hh.strong] at hz
    rw [hh.payload]
    exact hs.cleared id hz
  felled t hz := by
    rw [hh.tree] at hz ⊢
    exact hs.felled t hz
  agrees v hv := by
    refine (hs.agrees v ?_).congr fun t => by rw [hh.tree]
    rcases hv with hv | ⟨id, hv⟩ | ⟨t, k, hv⟩
    · exact .inl hv
    · exact .inr (.inl ⟨id, by rw [← hh.payload, hv]⟩)
    · exact .inr (.inr ⟨t, k, by rw [← hh.tree]; exact hv⟩)

/-- A link is as good as the handle in it. -/
theorem link (hs : h.Sound (.strong id :: o)) : h.Sound (.value (.node id) :: o) := by
  refine hs.regroup (.refl _) ?_
  intro v hv
  rcases List.mem_cons.1 hv with he | hv
  · cases he
    intro m hm
    cases hm
  · exact hs.agrees v (.inl (List.mem_cons_of_mem _ hv))

theorem unlink (hs : h.Sound (.value (.node id) :: o)) : h.Sound (.strong id :: o) := by
  refine hs.regroup (.refl _) fun v hv => hs.agrees v (.inl (List.mem_cons_of_mem _ ?_))
  simpa using hv

/-- A value without handles costs nothing. -/
theorem scalar (hs : h.Sound o) (hv : v.handles = []) : h.Sound (.value v :: o) := by
  apply hs.regroup
  · rw [Holding.handlesAll_cons, Holding.handles, hv]
    exact .refl _
  · intro w hw
    rcases List.mem_cons.1 hw with he | hw
    · cases he
      intro m hm
      have := Value.tree_mem_handles hm
      rw [hv] at this
      cases this
    · exact hs.agrees w (.inl hw)

theorem list {vs : List Value} (hs : h.Sound (vs.map .value ++ o)) :
    h.Sound (.value (.list vs) :: o) := by
  apply hs.regroup
  · rw [Holding.handlesAll_append, Holding.handlesAll_values]
    exact .refl _
  · intro w hw
    rcases List.mem_cons.1 hw with he | hw
    · cases he
      intro m hm
      obtain ⟨v, hv, hm⟩ := Value.mem_mapsAll.1 hm
      have hs := hs.agrees v (.inl (List.mem_append_left _ (List.mem_map_of_mem hv)))
      exact hs m hm
    · exact hs.agrees w (.inl (List.mem_append_right _ hw))

theorem items {vs : List Value} (hs : h.Sound (.value (.list vs) :: o)) :
    h.Sound (vs.map .value ++ o) := by
  apply hs.regroup
  · rw [Holding.handlesAll_append, Holding.handlesAll_values]
    exact .refl _
  · intro w hw
    rcases List.mem_append.1 hw with hw | hw
    · obtain ⟨v, hv, he⟩ := List.mem_map.1 hw
      cases he
      intro m hm
      exact hs.agrees _ (.inl List.mem_cons_self) m (Value.mem_mapsAll.2 ⟨w, hv, hm⟩)
    · exact hs.agrees w (.inl (List.mem_cons_of_mem _ hw))

/-! ## Handles to nodes -/

/-- Counts of one cell change, payloads and trees do not. -/
theorem modifyCell {f : Cell → Cell} (hs : h.Sound o)
    (hc : (h.modifyCell id f).Counted (Holding.handlesAll o'))
    (hp : ∀ c, (f c).payload = c.payload)
    (hz : (f (h.cell id)).strong = 0 → (h.cell id).payload = .nil)
    (hv : ∀ v, .value v ∈ o' → h.Agrees v) : (h.modifyCell id f).Sound o' := by
  have hpay (id' : NodeId) : ((h.modifyCell id f).cell id').payload = (h.cell id').payload :=
    cell_modifyCell_keeps (·.payload) hp
  refine ⟨hc, ?_, hs.felled, ?_⟩
  · intro id' hz'
    rw [hpay]
    rw [cell_modifyCell] at hz'
    split at hz'
    · next hi => rw [← hi.1]; exact hz hz'
    · exact hs.cleared id' hz'
  · rintro v (hm | ⟨id', rfl⟩ | hm)
    · exact hv v hm
    · rw [hpay]
      exact hs.agrees _ (.inr (.inl ⟨id', rfl⟩))
    · exact hs.agrees v (.inr (.inr hm))

theorem agrees_of_cons {x : Holding} (hs : h.Sound (x :: o)) (v : Value) (hv : .value v ∈ o) :
    h.Agrees v := hs.agrees v (.inl (List.mem_cons_of_mem _ hv))

theorem addStrong (hs : h.Sound o) (ha : (h.cell id).strong ≠ 0) :
    (h.addStrong id).Sound (.strong id :: o) := by
  refine hs.modifyCell (hs.counted.addStrong ha) ?_ ?_ ?_
  · intro _
    rfl
  · intro hz
    exact absurd hz (Nat.succ_ne_zero _)
  · intro v hv
    exact hs.agrees v (.inl (by simpa using hv))

theorem dropStrong (hs : h.Sound (.strong id :: o))
    (hp : (h.cell id).strong = 1 → (h.cell id).payload = .nil) : (h.dropStrong id).Sound o := by
  refine hs.modifyCell hs.counted.dropStrong ?_ ?_ hs.agrees_of_cons
  · intro _
    rfl
  · intro hz
    have := hs.counter_ne_zero_of_owned (x := .strong id) List.mem_cons_self
    simp only [counter] at this hz
    exact hp (by omega)

theorem addWeak (hs : h.Sound o) (hb : id.number < h.cells.size) :
    (h.addWeak id).Sound (.weak id :: o) := by
  refine hs.modifyCell (hs.counted.addWeak hb) ?_ ?_ ?_
  · intro _
    rfl
  · intro hz
    exact hs.cleared id hz
  · intro v hv
    exact hs.agrees v (.inl (by simpa using hv))

theorem dropWeak (hs : h.Sound (.weak id :: o)) : (h.dropWeak id).Sound o := by
  refine hs.modifyCell hs.counted.dropWeak ?_ ?_ hs.agrees_of_cons
  · intro _
    rfl
  · intro hz
    exact hs.cleared id hz

/-! ## Payloads -/

/-- The new payload is let in and the old one is handed out. -/
theorem setPayload (hs : h.Sound (.value v :: o)) (ha : (h.cell id).strong ≠ 0) :
    (h.setPayload id v).Sound (.value (h.cell id).payload :: o) := by
  have hb := built_of_strong ha
  refine ⟨hs.counted.setPayload hb, ?_, hs.felled, ?_⟩
  · intro id' hz
    rw [strong_setPayload] at hz
    have hn : id ≠ id' := by rintro rfl; exact ha hz
    rw [payload_setPayload_of_ne hn]
    exact hs.cleared id' hz
  · rintro w (hm | ⟨id', rfl⟩ | hm)
    · rcases List.mem_cons.1 hm with he | hm
      · cases he
        exact hs.agrees _ (.inr (.inl ⟨id, rfl⟩))
      · exact hs.agrees_of_cons w hm
    · by_cases hn : id = id'
      · subst hn
        rw [payload_setPayload hb]
        exact hs.agrees v (.inl List.mem_cons_self)
      · rw [payload_setPayload_of_ne hn]
        exact hs.agrees _ (.inr (.inl ⟨id', rfl⟩))
    · exact hs.agrees w (.inr (.inr hm))

theorem strong_of_payload {tail : NodeId} (hs : h.Sound o)
    (hp : (h.cell id).payload.node? = some tail) : (h.cell tail).strong ≠ 0 := by
  have hv : (h.cell id).payload = .node tail := by
    cases hq : (h.cell id).payload <;> simp_all [Value.node?]
  refine hs.counter_ne_zero (x := .strong tail) (.inr (.inl ⟨id, rfl⟩)) ?_
  rw [hv]
  exact List.mem_singleton.2 rfl

/-- The link of a frame comes out, with a second handle to the linked node. -/
theorem detach {tail : NodeId} (hs : h.Sound o) (ha : (h.cell id).strong ≠ 0)
    (hp : (h.cell id).payload.node? = some tail) :
    (h.detach id tail).Sound (.value (.node tail) :: .strong tail :: o) := by
  have h1 : (h.addStrong tail).Sound (.value .nil :: .strong tail :: o) :=
    (hs.addStrong (hs.strong_of_payload hp)).scalar rfl
  have hpay : ((h.addStrong tail).cell id).payload = .node tail := by
    rw [payload_addStrong]
    cases hq : (h.cell id).payload <;> simp_all [Value.node?]
  have ha' : ((h.addStrong tail).cell id).strong ≠ 0 := by
    rw [Heap.addStrong, cell_modifyCell]
    split
    · exact Nat.succ_ne_zero _
    · exact ha
  have h2 := h1.setPayload ha'
  rw [hpay] at h2
  exact h2

/-- The last handle of a node goes, and its payload comes out. -/
theorem destroy (hs : h.Sound (.strong id :: o)) :
    ((h.dropStrong id).setPayload id .nil).Sound (.value (h.cell id).payload :: o) := by
  have ha : (h.cell id).strong ≠ 0 :=
    hs.counter_ne_zero_of_owned (x := .strong id) List.mem_cons_self
  have h1 := (hs.scalar (v := .nil) rfl).setPayload ha
  rw [setPayload_dropStrong]
  apply (h1.perm (.swap _ _ _)).dropStrong
  intro _
  exact payload_setPayload (built_of_strong ha)

/-! ## Maps -/

theorem addCopy {es : List (String × Value)} (hs : h.Sound o) (hc : (h.tree t).copies ≠ 0)
    (he : (h.tree t).entries = es) : (h.addCopy t).Sound (.value (.map t es) :: o) := by
  have hent := entries_addCopy h t
  refine ⟨hs.counted.addCopy hc, hs.cleared, ?_, ?_⟩
  · intro t' hz
    rw [hent]
    rw [Heap.addCopy, tree_modifyTree] at hz
    split at hz
    · cases hz
    · exact hs.felled t' hz
  · rintro v (hm | hm | ⟨t', k, hm⟩)
    · rcases List.mem_cons.1 hm with heq | hm
      · cases heq
        intro m hm
        rw [List.mem_singleton.1 hm, hent, he]
      · exact (hs.agrees v (.inl hm)).congr hent
    · exact (hs.agrees v (.inr (.inl hm))).congr hent
    · rw [hent] at hm
      exact (hs.agrees v (.inr (.inr ⟨t', k, hm⟩))).congr hent

/-- One of several copies of a map goes. -/
theorem dropCopy {es : List (String × Value)} (hs : h.Sound (.value (.map t es) :: o))
    (hc : (h.tree t).copies ≠ 1) : (h.dropCopy t).Sound o := by
  have hent := entries_dropCopy h t
  refine ⟨hs.counted.dropCopy, hs.cleared, ?_, ?_⟩
  · intro t' hz
    rw [hent]
    rw [Heap.dropCopy, tree_modifyTree] at hz
    split at hz
    · next hi =>
      have h1 : (h.tree t).copies ≠ 0 :=
        hs.counter_ne_zero_of_owned (x := .tree t) List.mem_cons_self
      have h2 : (h.tree t).copies - 1 = 0 := hz
      omega
    · exact hs.felled t' hz
  · rintro v (hm | hm | ⟨t', k, hm⟩)
    · exact (hs.agrees_of_cons v hm).congr hent
    · exact (hs.agrees v (.inr (.inl hm))).congr hent
    · rw [hent] at hm
      exact (hs.agrees v (.inr (.inr ⟨t', k, hm⟩))).congr hent

/-- Nothing that stays behind names the tree whose last copy goes. -/
theorem tree_notMem_of_last {es : List (String × Value)}
    (hs : h.Sound (.value (.map t es) :: o)) (hc : (h.tree t).copies = 1) (hv : h.Stored o v) :
    .tree t ∉ v.handles := by
  intro hx
  have hs : h.Sound ([.value (.map t es)] ++ o) := hs
  obtain ⟨hin, hout⟩ := hs.last (x := .tree t) List.mem_cons_self hc
  have := hv.count_pos hx
  rw [hin, List.count_eq_zero.2 hout] at this
  exact Nat.lt_irrefl 0 this

/-- The last copy of a map goes, and the entries come out. -/
theorem fell {es : List (String × Value)} (hs : h.Sound (.value (.map t es) :: o))
    (hc : (h.tree t).copies = 1) :
    ((h.dropCopy t).fell t).Sound (((h.tree t).entries.map (·.2)).map .value ++ o) := by
  have htree := tree_fell_dropCopy hc
  have hagree (v : Value) (hv : h.Stored o v) : ((h.dropCopy t).fell t).Agrees v := by
    intro m hm
    have hne : t ≠ m.1 := by
      rintro rfl
      exact hs.tree_notMem_of_last hc hv (Value.tree_mem_handles hm)
    rw [htree, if_neg hne]
    exact hs.agrees v (hv.imp_left (List.mem_cons_of_mem _)) m hm
  refine ⟨?_, hs.cleared, ?_, ?_⟩
  · have hcount := hs.counted.dropCopy.fell (t := t)
    have hent : ((h.dropCopy t).tree t).handles = (h.tree t).handles := by
      rw [Tree.handles, entries_dropCopy, Tree.handles]
    rw [hent] at hcount
    rw [Holding.handlesAll_append, Holding.handlesAll_values]
    exact hcount
  · intro t' hz
    rw [htree] at hz ⊢
    split
    · rfl
    · next hn =>
      rw [if_neg hn] at hz
      exact hs.felled t' hz
  · rintro v (hm | hm | ⟨t', k, hm⟩)
    · rcases List.mem_append.1 hm with hm | hm
      · obtain ⟨w, hw, he⟩ := List.mem_map.1 hm
        cases he
        obtain ⟨e, he, rfl⟩ := List.mem_map.1 hw
        exact hagree e.2 (.inr (.inr ⟨t, e.1, he⟩))
      · exact hagree v (.inl hm)
    · exact hagree v (.inr (.inl hm))
    · rw [htree] at hm
      split at hm
      · cases hm
      · exact hagree v (.inr (.inr ⟨t', k, hm⟩))

/-- The entries of a new map go into a new tree. -/
theorem plant {es : List (String × Value)}
    (hs : h.Sound ((es.map (·.2)).map .value ++ o)) :
    (h.plant es).Sound (.value (.map h.nextTree es) :: o) := by
  have hold (v : Value) (hv : h.Stored ((es.map (·.2)).map .value ++ o) v) :
      (h.plant es).Agrees v := by
    intro m hm
    have hc : h.counter (.tree m.1) ≠ 0 := hs.counter_ne_zero hv (Value.tree_mem_handles hm)
    have hne : m.1 ≠ h.nextTree := by
      intro he
      have := planted_of_copies hc
      rw [he] at this
      exact Nat.lt_irrefl _ this
    rw [tree_plant, if_neg hne]
    exact hs.agrees v hv m hm
  refine ⟨?_, hs.cleared, ?_, ?_⟩
  · have hcount := hs.counted
    rw [Holding.handlesAll_append, Holding.handlesAll_values] at hcount
    exact hcount.plant
  · intro t hz
    rw [tree_plant] at hz ⊢
    split
    · next he =>
      rw [if_pos he] at hz
      cases hz
    · next he =>
      rw [if_neg he] at hz
      exact hs.felled t hz
  · rintro v (hm | hm | ⟨t, k, hm⟩)
    · rcases List.mem_cons.1 hm with he | hm
      · cases he
        intro m hm
        rw [List.mem_singleton.1 hm, tree_plant, if_pos rfl]
      · exact hold v (.inl (List.mem_append_right _ hm))
    · exact hold v (.inr (.inl hm))
    · rw [tree_plant] at hm
      split at hm
      · exact hold v (.inl (List.mem_append_left _ (List.mem_map_of_mem
          (List.mem_map.2 ⟨(k, v), hm, rfl⟩))))
      · exact hold v (.inr (.inr ⟨t, k, hm⟩))

/-- A new node takes its payload in. -/
theorem build (hs : h.Sound (.value v :: o)) (model : Model) (lease : Option BudgetId) :
    (h.build model v lease).Sound (.strong h.nextNode :: o) := by
  refine ⟨hs.counted.build model lease, ?_, hs.felled, ?_⟩
  · intro id hz
    rw [cell_build] at hz ⊢
    split
    · next he =>
      rw [if_pos he] at hz
      cases hz
    · next he =>
      rw [if_neg he] at hz
      exact hs.cleared id hz
  · rintro w (hm | ⟨id, rfl⟩ | hm)
    · exact hs.agrees_of_cons w (by simpa using hm)
    · rw [cell_build]
      split
      · exact hs.agrees v (.inl List.mem_cons_self)
      · exact hs.agrees _ (.inr (.inl ⟨id, rfl⟩))
    · exact hs.agrees w (.inr (.inr hm))

end Sound

/-! ## Copies of values -/

mutual
/-- What further handles and further copies of maps keep, a copy of a value keeps. -/
theorem retain_induction {P : Heap → Prop} (hn : ∀ h id, P h → P (h.addStrong id))
    (ht : ∀ h t, P h → P (h.addCopy t)) : ∀ {h : Heap} (v : Value), P h → P (h.retain v)
  | _, .list items, hp => retainAll_induction hn ht items hp
  | _, .map t _, hp => ht _ t hp
  | _, .node id, hp => hn _ id hp
  | _, .nil, hp => hp
  | _, .bool _, hp => hp
  | _, .number _, hp => hp
  | _, .text _, hp => hp

theorem retainAll_induction {P : Heap → Prop} (hn : ∀ h id, P h → P (h.addStrong id))
    (ht : ∀ h t, P h → P (h.addCopy t)) : ∀ {h : Heap} (vs : List Value), P h → P (h.retainAll vs)
  | _, [], hp => hp
  | _, v :: vs, hp => retainAll_induction hn ht vs (retain_induction hn ht v hp)
end

/-- A value whose maps are those of the heap and whose handles are counted. -/
structure Present (h : Heap) (v : Value) : Prop where
  agrees : h.Agrees v
  counted : ∀ x ∈ v.handles, h.counter x ≠ 0

theorem Present.item {vs : List Value} (hv : h.Present (.list vs)) (hm : v ∈ vs) :
    h.Present v where
  agrees m hx := hv.agrees m (Value.mem_mapsAll.2 ⟨v, hm, hx⟩)
  counted x hx := hv.counted x (Value.mem_handlesAll.2 ⟨v, hm, hx⟩)

theorem Sound.present (hs : h.Sound o) (hv : h.Stored o v) : h.Present v :=
  ⟨hs.agrees v hv, fun _ hx => hs.counter_ne_zero hv hx⟩

theorem Sound.present_entry {es : List (String × Value)} {e : String × Value} (hs : h.Sound o)
    (hv : h.Present (.map t es)) (hm : e ∈ es) : h.Present e.2 := by
  refine hs.present (.inr (.inr ⟨t, e.1, ?_⟩))
  rw [hv.agrees (t, es) List.mem_cons_self]
  exact hm

theorem counter_addStrong_ne_zero {x : Handle} (hx : h.counter x ≠ 0) :
    (h.addStrong id).counter x ≠ 0 := by
  cases x with
  | strong id' =>
    simp only [counter, addStrong, cell_modifyCell] at hx ⊢
    split
    · exact Nat.succ_ne_zero _
    · exact hx
  | weak id' =>
    have hw : ((h.addStrong id).cell id').weak = (h.cell id').weak :=
      cell_modifyCell_keeps (·.weak) fun _ => rfl
    rw [counter, hw]
    exact hx
  | tree t => exact hx

theorem counter_addCopy_ne_zero {x : Handle} (hx : h.counter x ≠ 0) :
    (h.addCopy t).counter x ≠ 0 := by
  cases x with
  | strong id => exact hx
  | weak id => exact hx
  | tree t' =>
    simp only [counter, addCopy, tree_modifyTree] at hx ⊢
    split
    · exact Nat.succ_ne_zero _
    · exact hx

/-- Copies of one value leave another present. -/
theorem Present.retain (hv : h.Present v) (w : Value) : (h.retain w).Present v :=
  retain_induction (P := fun h => h.Present v)
    (fun _ _ hp => ⟨hp.agrees, fun x hx => counter_addStrong_ne_zero (hp.counted x hx)⟩)
    (fun h t hp => ⟨hp.agrees.congr (entries_addCopy h t),
      fun x hx => counter_addCopy_ne_zero (hp.counted x hx)⟩) w hv

namespace Sound

mutual
/-- A copy of a value that is there may be handed out. -/
theorem retain : ∀ {h : Heap} {v : Value} {o : List Holding}, h.Sound o → h.Present v →
    (h.retain v).Sound (.value v :: o)
  | _, .list _, _, hs, hv => (retainAll hs fun _ hm => hv.item hm).list
  | _, .map _ _, _, hs, hv =>
    hs.addCopy (hv.counted _ List.mem_cons_self) (hv.agrees _ List.mem_cons_self)
  | _, .node _, _, hs, hv => (hs.addStrong (hv.counted _ List.mem_cons_self)).link
  | _, .nil, _, hs, _ => hs.scalar rfl
  | _, .bool _, _, hs, _ => hs.scalar rfl
  | _, .number _, _, hs, _ => hs.scalar rfl
  | _, .text _, _, hs, _ => hs.scalar rfl

theorem retainAll : ∀ {h : Heap} {vs : List Value} {o : List Holding}, h.Sound o →
    (∀ v ∈ vs, h.Present v) → (h.retainAll vs).Sound (vs.map .value ++ o)
  | _, [], _, hs, _ => hs
  | _, v :: vs, _, hs, hv => by
    have h1 := retain hs (hv v List.mem_cons_self)
    have h2 := retainAll h1 fun w hw => (hv w (List.mem_cons_of_mem _ hw)).retain v
    exact h2.perm List.perm_middle
end

end Sound
end Heap
end GraphStack
