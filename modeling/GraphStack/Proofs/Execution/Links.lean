import GraphStack.Proofs.Execution.Counts

/-!
# Links between nodes

Every living node is named by something that is held or by the payload of a living node: a link
among the entries of a shared tree is also in one of these, since some map with these entries is.
Going from a node to one that names it, again and again, ends at what is held or runs in a circle.
-/

namespace GraphStack

namespace Value

/-- Lists are opened, maps are not. -/
theorem list_induction {P : Value → Prop} (list : ∀ vs : List Value, (∀ v ∈ vs, P v) → P (.list vs))
    (map : ∀ t es, P (.map t es)) (node : ∀ id, P (.node id))
    (scalar : ∀ v : Value, v.handles = [] → v.maps = [] → P v) : ∀ v, P v
  | .list vs => list vs fun v _ => list_induction list map node scalar v
  | .map t es => map t es
  | .node id => node id
  | .nil => scalar _ rfl rfl
  | .bool _ => scalar _ rfl rfl
  | .number _ => scalar _ rfl rfl
  | .text _ => scalar _ rfl rfl

variable {v : Value} {id : NodeId} {t : MapId} {m : MapId × List (String × Value)}
  {e : String × Value}

theorem names_of_handle (hx : .strong id ∈ v.handles) : v.Names id := by
  induction v using list_induction with
  | list vs ih =>
    obtain ⟨w, hw, hx⟩ := mem_handlesAll.1 hx
    exact .item hw (ih w hw hx)
  | map t es => cases List.mem_singleton.1 hx
  | node id' =>
    cases List.mem_singleton.1 hx
    exact .link
  | scalar v hv _ =>
    rw [hv] at hx
    cases hx

/-- What an entry of a map in the value names, the value names. -/
theorem names_of_entry (hm : m ∈ v.maps) (he : e ∈ m.2) (hn : e.2.Names id) : v.Names id := by
  induction v using list_induction with
  | list vs ih =>
    obtain ⟨w, hw, hm⟩ := mem_mapsAll.1 hm
    exact .item hw (ih w hw hm)
  | map t es =>
    cases List.mem_singleton.1 hm
    exact .entry he hn
  | node => cases hm
  | scalar v _ hv =>
    rw [hv] at hm
    cases hm

theorem exists_map_of_handle (hx : .tree t ∈ v.handles) : ∃ es, (t, es) ∈ v.maps := by
  induction v using list_induction with
  | list vs ih =>
    obtain ⟨w, hw, hx⟩ := mem_handlesAll.1 hx
    obtain ⟨es, hm⟩ := ih w hw hx
    exact ⟨es, mem_mapsAll.2 ⟨w, hw, hm⟩⟩
  | map t' es =>
    cases List.mem_singleton.1 hx
    exact ⟨es, List.mem_cons_self⟩
  | node => cases List.mem_singleton.1 hx
  | scalar v hv _ =>
    rw [hv] at hx
    cases hx

theorem depth_le_depths {vs : List Value} (hv : v ∈ vs) : v.depth ≤ depths vs := by
  induction vs with
  | nil => cases hv
  | cons w vs ih =>
    rcases List.mem_cons.1 hv with rfl | hv
    · exact le_max_left _ _
    · exact (ih hv).trans (le_max_right _ _)

theorem depth_le_entryDepths {es : List (String × Value)} (he : e ∈ es) :
    e.2.depth ≤ entryDepths es := by
  induction es with
  | nil => cases he
  | cons e' es ih =>
    rcases List.mem_cons.1 he with rfl | he
    · exact le_max_left _ _
    · exact (ih he).trans (le_max_right _ _)

/-- An entry of a map is less deep than a value that the map is in. -/
theorem depth_entry_lt (hm : m ∈ v.maps) (he : e ∈ m.2) : e.2.depth < v.depth := by
  induction v using list_induction with
  | list vs ih =>
    obtain ⟨w, hw, hm⟩ := mem_mapsAll.1 hm
    exact ((ih w hw hm).trans_le (depth_le_depths hw)).trans (Nat.lt_succ_self _)
  | map t es =>
    cases List.mem_singleton.1 hm
    exact Nat.lt_succ_of_le (depth_le_entryDepths he)
  | node => cases hm
  | scalar v _ hv =>
    rw [hv] at hm
    cases hm

end Value

/-- A handle or a value that is held leads to the node. -/
def Holding.Names (owned : List Holding) (id : NodeId) : Prop :=
  .strong id ∈ owned ∨ ∃ v, .value v ∈ owned ∧ v.Names id

namespace Heap

variable {h : Heap} {o : List Holding} {id a b : NodeId} {v : Value}

/-- The payload of the first node, which is alive, leads to the second. -/
def Links (h : Heap) (a b : NodeId) : Prop := (h.cell a).isAlive ∧ (h.payload a).Names b

theorem names_iff : h.Names o id ↔ Holding.Names o id ∨ ∃ a, h.Links a id := or_assoc.symm

theorem built_of_isAlive (ha : (h.cell id).isAlive) : id.number < h.cells.size :=
  built_of_strong (isAlive_iff.1 ha)

/-- The first node leads to the second and is on no cycle. -/
def Above (h : Heap) (a b : Fin h.cells.size) : Prop :=
  Relation.TransGen h.Links ⟨a⟩ ⟨b⟩ ∧ ¬ Relation.TransGen h.Links ⟨a⟩ ⟨a⟩

/-- Going backwards over nodes on no cycle meets each of the finitely many nodes once. -/
theorem wellFounded_above (h : Heap) : WellFounded h.Above := by
  have htrans : IsTrans _ h.Above := ⟨fun _ _ _ hab hbc => ⟨hab.1.trans hbc.1, hab.2⟩⟩
  have hirrefl : Std.Irrefl h.Above := ⟨fun _ haa => haa.2 haa.1⟩
  exact Finite.wellFounded_of_trans_of_irrefl _

/-- Entries of trees are only so deep. -/
theorem exists_depth_bound (h : Heap) : ∃ n, ∀ t, ∀ e ∈ (h.tree t).entries, e.2.depth ≤ n := by
  refine ⟨(Finset.range h.trees.size).sup fun i => Value.entryDepths (h.tree ⟨i⟩).entries, ?_⟩
  intro t e he
  have hb : t.index < h.trees.size := by
    by_contra hb
    rw [tree_eq_vacant hb] at he
    cases he
  have hle := Finset.le_sup (f := fun i => Value.entryDepths (h.tree ⟨i⟩).entries)
    (Finset.mem_range.2 hb)
  exact (Value.depth_le_entryDepths he).trans hle

namespace Sound

/-- A handle that is counted is held as such or is in a value that is stored somewhere. -/
theorem exists_stored (hs : h.Sound o) {x : Handle} (hx : h.counter x ≠ 0) :
    (∃ y ∈ o, y.handles = [x] ∧ ∀ v, y ≠ .value v) ∨ ∃ v, h.Stored o v ∧ x ∈ v.handles := by
  by_cases ho : x ∈ Holding.handlesAll o
  · obtain ⟨y, hy, hx⟩ := List.mem_flatMap.1 ho
    cases y with
    | value v => exact .inr ⟨v, .inl hy, hx⟩
    | strong id =>
      cases List.mem_singleton.1 hx
      exact .inl ⟨_, hy, rfl, fun _ => nofun⟩
    | weak id =>
      cases List.mem_singleton.1 hx
      exact .inl ⟨_, hy, rfl, fun _ => nofun⟩
  · have hin : h.inside x ≠ 0 := by
      rwa [hs.counted x, List.count_eq_zero.2 ho] at hx
    rcases exists_of_inside hin with ⟨id, hx⟩ | ⟨t, hx⟩
    · exact .inr ⟨_, .inr (.inl ⟨id, rfl⟩), hx⟩
    · obtain ⟨v, hv, hx⟩ := Value.mem_handlesAll.1 hx
      obtain ⟨e, he, rfl⟩ := List.mem_map.1 hv
      exact .inr ⟨_, .inr (.inr ⟨t, e.1, he⟩), hx⟩

/-- What a stored value names is named by something that is held or by a payload. An entry of a
tree is in a map that is itself stored; that map is deeper, so this comes to an end. -/
theorem names_of_stored (hs : h.Sound o) (hv : h.Stored o v) (hn : v.Names id) :
    h.Names o id := by
  obtain ⟨n, hbound⟩ := h.exists_depth_bound
  induction hk : n + 1 - v.depth using Nat.strong_induction_on generalizing v with
  | _ k ih =>
    rcases hv with hv | ⟨a, rfl⟩ | ⟨t, key, hv⟩
    · exact .inr (.inl ⟨v, hv, hn⟩)
    · refine .inr (.inr ⟨a, isAlive_iff.2 fun hz => ?_, hn⟩)
      rw [hs.cleared a hz] at hn
      cases hn
    · have hle : v.depth ≤ n := hbound t _ hv
      have hc : h.counter (.tree t) ≠ 0 := by
        intro hz
        rw [hs.felled t hz] at hv
        cases hv
      rcases hs.exists_stored hc with ⟨y, -, hy, hne⟩ | ⟨w, hw, hx⟩
      · cases y with
        | value v => exact absurd rfl (hne v)
        | strong => cases hy
        | weak => cases hy
      · obtain ⟨es, hm⟩ := Value.exists_map_of_handle hx
        have hes : (h.tree t).entries = es := hs.agrees w hw _ hm
        subst hes
        have hlt : v.depth < w.depth := Value.depth_entry_lt hm hv
        exact ih _ (by omega) hw (Value.names_of_entry hm hv hn) rfl

theorem names_of_isAlive (hs : h.Sound o) (ha : (h.cell id).isAlive) : h.Names o id := by
  have hc : h.counter (.strong id) ≠ 0 := isAlive_iff.1 ha
  rcases hs.exists_stored hc with ⟨y, hy, hx, hne⟩ | ⟨v, hv, hx⟩
  · cases y with
    | value v => exact absurd rfl (hne v)
    | strong id' =>
      cases hx
      exact .inl hy
    | weak => cases hx
  · exact hs.names_of_stored hv (Value.names_of_handle hx)

theorem isAlive_of_links (hs : h.Sound o) (hl : h.Links a b) : (h.cell b).isAlive :=
  hs.isAlive_of_names (names_iff.2 (.inr ⟨a, hl⟩))

theorem isAlive_of_reachable (hs : h.Sound o) (ha : (h.cell a).isAlive)
    (hr : Relation.ReflTransGen h.Links a b) : (h.cell b).isAlive := by
  induction hr with
  | refl => exact ha
  | tail _ hl => exact hs.isAlive_of_links hl

/-- A living node can be reached from what is held or from a node on a cycle. -/
theorem exists_root (hs : h.Sound o) (ha : (h.cell id).isAlive) :
    ∃ root, Relation.ReflTransGen h.Links root id ∧
      (Holding.Names o root ∨ Relation.TransGen h.Links root root) := by
  obtain ⟨n⟩ := id
  obtain ⟨i, rfl⟩ : ∃ i : Fin h.cells.size, i.val = n := ⟨⟨n, built_of_isAlive ha⟩, rfl⟩
  induction i using h.wellFounded_above.induction with
  | _ i ih =>
    rcases names_iff.1 (hs.names_of_isAlive ha) with ho | ⟨⟨m⟩, hl⟩
    · exact ⟨_, .refl, .inl ho⟩
    · by_cases hc : Relation.TransGen h.Links ⟨m⟩ ⟨m⟩
      · exact ⟨_, .single hl, .inr hc⟩
      · obtain ⟨root, hr, hroot⟩ := ih ⟨m, built_of_isAlive hl.1⟩ ⟨.single hl, hc⟩ hl.1
        exact ⟨root, hr.tail hl, hroot⟩

/-- Without cycles, the living nodes are those that can be reached from what is held. -/
theorem isAlive_iff_reachable (hs : h.Sound o)
    (hacyclic : ∀ a, ¬ Relation.TransGen h.Links a a) (id : NodeId) :
    (h.cell id).isAlive ↔
      ∃ root, Holding.Names o root ∧ Relation.ReflTransGen h.Links root id := by
  constructor
  · intro ha
    obtain ⟨root, hr, ho | hc⟩ := hs.exists_root ha
    · exact ⟨root, ho, hr⟩
    · exact absurd hc (hacyclic root)
  · rintro ⟨root, ho, hr⟩
    exact hs.isAlive_of_reachable (hs.isAlive_of_names (names_iff.2 (.inl ho))) hr

end Sound
end Heap
end GraphStack
