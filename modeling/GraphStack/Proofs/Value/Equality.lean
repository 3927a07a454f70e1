import GraphStack.Proofs.Session.Slots
import GraphStack.Proofs.Value.Shape
import GraphStack.Session.Command

/-!
# Equality of values

Two values are equal where their trees correspond with equal numbers (`Value.same_iff`), so equality
is symmetric and transitive, and a value differs from itself exactly where a NaN is in it. What a
session replies when it compares two values depends on their trees alone.
-/

namespace GraphStack

namespace Double

variable {x y z : Double}

theorem same_iff : x.same y ↔ x.isNaN = false ∧ y.isNaN = false ∧
    (x = y ∨ x.isZero ∧ y.isZero) := by
  have hbits : x.bits = y.bits ↔ x = y := by cases x; cases y; simp
  simp [same, hbits, and_assoc]

theorem same_symm (h : x.same y) : y.same x := by
  obtain ⟨hx, hy, h⟩ := same_iff.1 h
  exact same_iff.2 ⟨hy, hx, h.imp Eq.symm And.symm⟩

theorem same_trans (h : x.same y) (h' : y.same z) : x.same z := by
  obtain ⟨hx, _, h⟩ := same_iff.1 h
  obtain ⟨_, hz, h'⟩ := same_iff.1 h'
  refine same_iff.2 ⟨hx, hz, ?_⟩
  rcases h with rfl | ⟨hx0, hy0⟩
  · exact h'
  · rcases h' with rfl | ⟨_, hz0⟩
    · exact .inr ⟨hx0, hy0⟩
    · exact .inr ⟨hx0, hz0⟩

theorem same_self_iff : x.same x ↔ x.isNaN = false := by simp [same_iff]

end Double

namespace Value

variable {u v w v' w' : Value} {vs ws : List Value} {t t' : MapId}
  {es fs : List (String × Value)}

theorem sameLists_iff : sameLists vs ws ↔
    vs.length = ws.length ∧ ∀ (i : Nat) v w, vs[i]? = some v → ws[i]? = some w → v.same w := by
  induction vs generalizing ws with
  | nil => cases ws <;> simp [sameLists]
  | cons v vs ih =>
    cases ws with
    | nil => simp [sameLists]
    | cons w ws =>
      rw [sameLists, Bool.and_eq_true, ih]
      constructor
      · rintro ⟨hh, hl, hi⟩
        refine ⟨congrArg Nat.succ hl, fun i => ?_⟩
        cases i with
        | zero =>
          rintro _ _ ⟨⟩ ⟨⟩
          exact hh
        | succ i => exact hi i
      · rintro ⟨hl, hi⟩
        exact ⟨hi 0 v w rfl rfl, Nat.succ.inj hl, fun i => hi (i + 1)⟩

theorem sameEntries_iff : sameEntries es fs ↔
    ∀ k v, (k, v) ∈ es → ∃ w, fs.lookup k = some w ∧ v.same w := by
  induction es with
  | nil => simp [sameEntries]
  | cons e es ih =>
    obtain ⟨k, v⟩ := e
    have head : sameEntries ((k, v) :: es) fs ↔
        (∃ w, fs.lookup k = some w ∧ v.same w) ∧ sameEntries es fs := by
      cases hl : fs.lookup k <;> simp [sameEntries, hl]
    rw [head, ih]
    constructor
    · rintro ⟨hh, ht⟩ k' v' hm
      rcases List.mem_cons.1 hm with he | hm
      · cases he
        exact hh
      · exact ht k' v' hm
    · intro h
      exact ⟨h k v List.mem_cons_self, fun k' v' hm => h k' v' (List.mem_cons_of_mem _ hm)⟩

theorem lookup_of_entry {k : String} (hn : (es.map (·.1)).Nodup) (hm : (k, v) ∈ es) :
    es.lookup k = some v := by
  cases hl : es.lookup k with
  | none => exact absurd (List.lookup_eq_none_iff.1 hl _ hm) (by simp)
  | some w => rw [entry_unique hn hm (mem_of_lookup hl)]

/-- As many keys, all of them among the others, are the same keys. -/
theorem keys_eq_of_subset (hn : (es.map (·.1)).Nodup) (hl : es.length = fs.length)
    (hs : ∀ k, k ∈ es.map (·.1) → k ∈ fs.map (·.1)) (k : String) :
    k ∈ es.map (·.1) ↔ k ∈ fs.map (·.1) := by
  have hsub : (es.map (·.1)).Subperm (fs.map (·.1)) := List.subperm_of_subset hn hs
  exact (hsub.perm_of_length_le (by simp [hl])).mem_iff

/-- Maps are equal that have the same keys, each with equal values. -/
theorem same_map_iff (hn : (es.map (·.1)).Nodup) (hn' : (fs.map (·.1)).Nodup) :
    (map t es).same (map t' fs) ↔ (∀ k, k ∈ es.map (·.1) ↔ k ∈ fs.map (·.1)) ∧
      ∀ k v w, (k, v) ∈ es → (k, w) ∈ fs → v.same w := by
  rw [same, Bool.and_eq_true, beq_iff_eq, sameEntries_iff]
  constructor
  · rintro ⟨hl, he⟩
    have keys : ∀ k, k ∈ es.map (·.1) → k ∈ fs.map (·.1) := by
      intro k hk
      obtain ⟨v, hm⟩ := exists_entry hk
      obtain ⟨w, hf, _⟩ := he k v hm
      exact List.mem_map_of_mem (mem_of_lookup hf)
    refine ⟨keys_eq_of_subset hn hl keys, fun k v w hm hf => ?_⟩
    obtain ⟨w', hf', hs⟩ := he k v hm
    cases (lookup_of_entry hn' hf).symm.trans hf'
    exact hs
  · rintro ⟨hk, he⟩
    refine ⟨?_, fun k v hm => ?_⟩
    · have hp := (List.perm_ext_iff_of_nodup hn hn').2 hk
      simpa using hp.length_eq
    · obtain ⟨w, hf⟩ := exists_entry ((hk k).1 (List.mem_map_of_mem hm))
      exact ⟨w, lookup_of_entry hn' hf, he k v w hm hf⟩

/-- Equal values are those with corresponding trees and equal numbers. -/
theorem same_iff (hv : v.Keyed) (hw : w.Keyed) :
    v.same w ↔ Corresponds (fun x y => x.same y) v w := by
  induction v using tree_induction generalizing w with
  | nil =>
    cases w
    case nil => exact iff_of_true rfl .nil
    all_goals exact iff_of_false Bool.false_ne_true nofun
  | bool b =>
    cases w
    case bool c =>
      rw [same, beq_iff_eq]
      exact ⟨fun h => h ▸ .bool b, fun | .bool _ => rfl⟩
    all_goals exact iff_of_false Bool.false_ne_true nofun
  | number x =>
    cases w
    case number y => exact ⟨fun h => .number h, fun | .number h => h⟩
    all_goals exact iff_of_false Bool.false_ne_true nofun
  | text s =>
    cases w
    case text t =>
      rw [same, beq_iff_eq]
      exact ⟨fun h => h ▸ .text s, fun | .text _ => rfl⟩
    all_goals exact iff_of_false Bool.false_ne_true nofun
  | list vs ih =>
    cases w
    case list ws =>
      rw [same, sameLists_iff]
      have item {i : Nat} {v w : Value} (hi : vs[i]? = some v) (hj : ws[i]? = some w) :=
        ih v (List.mem_of_getElem? hi) (hv.item (List.mem_of_getElem? hi))
          (hw.item (List.mem_of_getElem? hj))
      constructor
      · rintro ⟨hl, hi⟩
        exact .list hl fun i v w hvi hwi => (item hvi hwi).1 (hi i v w hvi hwi)
      · rintro (_ | _ | _ | _ | ⟨hl, hi⟩)
        exact ⟨hl, fun i v w hvi hwi => (item hvi hwi).2 (hi i v w hvi hwi)⟩
    all_goals exact iff_of_false Bool.false_ne_true nofun
  | map t es ih =>
    cases w
    case map t' fs =>
      rw [same_map_iff hv.nodup hw.nodup]
      have entry {k : String} {v w : Value} (he : (k, v) ∈ es) (hf : (k, w) ∈ fs) :=
        ih (k, v) he (hv.entry he) (hw.entry hf)
      constructor
      · rintro ⟨hk, he⟩
        exact .map hk fun k v w hm hf => (entry hm hf).1 (he k v w hm hf)
      · rintro (_ | _ | _ | _ | _ | ⟨hk, he⟩)
        exact ⟨hk, fun k v w hm hf => (entry hm hf).2 (he k v w hm hf)⟩
    all_goals exact iff_of_false Bool.false_ne_true nofun
  | node id =>
    cases w
    case node id' =>
      rw [same, beq_iff_eq]
      exact ⟨fun h => h ▸ .node id, fun | .node _ => rfl⟩
    all_goals exact iff_of_false Bool.false_ne_true nofun

theorem same_symm (hv : v.Keyed) (hw : w.Keyed) (h : v.same w) : w.same v :=
  (same_iff hw hv).2 (((same_iff hv hw).1 h).symm fun _ _ => Double.same_symm)

theorem same_trans (hu : u.Keyed) (hv : v.Keyed) (hw : w.Keyed) (h : u.same v) (h' : v.same w) :
    u.same w := by
  have huv := (same_iff hu hv).1 h
  have hvw := (same_iff hv hw).1 h'
  exact (same_iff hu hw).2 (Corresponds.trans @Double.same_trans huv hvw)

/-- A value equals itself unless a NaN is in it, however deep; nodes are not looked into. -/
theorem same_self_iff (hv : v.Keyed) :
    v.same v ↔ ∀ x, v.Contains (.number x) → x.isNaN = false := by
  rw [same_iff hv hv, Corresponds.refl_iff hv]
  simp only [Double.same_self_iff]

/-- Equality sees the trees of the values alone. -/
theorem same_congr (hv : v.Keyed) (hw : w.Keyed) (hv' : v'.Keyed) (hw' : w'.Keyed)
    (ht : SameTree v v') (ht' : SameTree w w') : v.same w = v'.same w' := by
  rw [Bool.eq_iff_iff, same_iff hv hw, same_iff hv' hw']
  exact ht.corresponds_iff ht'

end Value

namespace Session

variable {s s₁ s₂ : Session} {a b : Recipe} {v w : Value} {name : String}

/-- Two values are compared by themselves, whatever the heap holds. -/
theorem perform_compare (ha : s.build a = .ok (v, s₁)) (hb : s₁.build b = .ok (w, s₂)) :
    s.perform (.compare a b) =
      .ok (.compared (v.same w) (w.same v), s₂.onHeap (·.releaseAll [w, v])) := by
  simp only [perform, withValue, ha, hb]

theorem build_copy (hl : s.slots.lookup name = some (.value v)) :
    s.build (.copy name) = .ok (v, s.onHeap (·.retain v)) := by
  simp only [build, heldValue, hl]

theorem build_move (hl : s.slots.lookup name = some (.value v)) :
    s.build (.move name) = .ok (v, s.vacate name) := by
  simp only [build, moveOut, hl]

/-- A copy of a value is compared with the value itself. -/
theorem perform_compare_copy (hl : s.slots.lookup name = some (.value v)) :
    ∃ t, s.perform (.compare (.copy name) (.move name)) =
      .ok (.compared (v.same v) (v.same v), t) := by
  have hl' : (s.onHeap (·.retain v)).slots.lookup name = some (.value v) := hl
  exact ⟨_, perform_compare (build_copy hl) (build_move hl')⟩

end Session

namespace Value

variable {u v w : Value}

/-- Equality of values is a partial equivalence that holds of a value and itself, or its copy, just
where no NaN is in the value. It is decided by the trees of the two values: neither the order of the
entries nor the sharing of maps changes it, and no node's payload is looked at. -/
theorem same_partial_equivalence (hu : u.Keyed) (hv : v.Keyed) (hw : w.Keyed) :
    (v.same w → w.same v) ∧
    (u.same v → v.same w → u.same w) ∧
    (v.same v ↔ ∀ x, v.Contains (.number x) → x.isNaN = false) ∧
    (∀ v' w', v'.Keyed → w'.Keyed → SameTree v v' → SameTree w w' → v'.same w' = v.same w) ∧
    (∀ (s s₁ s₂ : Session) (a b : Recipe) (v' w' : Value), v'.Keyed → w'.Keyed →
      SameTree v v' → SameTree w w' → s.build a = .ok (v', s₁) → s₁.build b = .ok (w', s₂) →
      ∃ t, s.perform (.compare a b) = .ok (.compared (v.same w) (w.same v), t)) ∧
    ∀ (s : Session) (name : String), s.slots.lookup name = some (.value v) →
      ∃ t same, s.perform (.compare (.copy name) (.move name)) = .ok (.compared same same, t) ∧
        (same = true ↔ ∀ x, v.Contains (.number x) → x.isNaN = false) := by
  refine ⟨same_symm hv hw, same_trans hu hv hw, same_self_iff hv, ?_, ?_, ?_⟩
  · intro v' w' hv' hw' ht ht'
    exact (same_congr hv hw hv' hw' ht ht').symm
  · intro s s₁ s₂ a b v' w' hv' hw' ht ht' ha hb
    rw [same_congr hv hw hv' hw' ht ht', same_congr hw hv hw' hv' ht' ht]
    exact ⟨_, Session.perform_compare ha hb⟩
  · intro s name hl
    obtain ⟨t, ht⟩ := Session.perform_compare_copy hl
    exact ⟨t, v.same v, ht, same_self_iff hv⟩

/-- The same entries, with the key `a` or the key `b` first, in a tree of their own each. -/
def ordered (aFirst : Bool) : Value :=
  if aFirst then .map ⟨0⟩ [("a", .number ⟨0⟩), ("b", .list [.node ⟨1⟩])]
  else .map ⟨1⟩ [("b", .list [.node ⟨1⟩]), ("a", .number ⟨0⟩)]

/-- A NaN in a list in a map. -/
def spoiled : Value := .map ⟨2⟩ [("a", .list [.number ⟨0x7ff8000000000000⟩])]

/-- A slot for each of the two. -/
def bothOrders : Session :=
  ⟨.empty, [("x", .value (ordered true)), ("y", .value (ordered false))], []⟩

/-- The order of the entries makes no difference, a NaN does. -/
theorem same_partial_equivalence_ordered :
    ((ordered true).Keyed ∧ (ordered false).Keyed ∧ spoiled.Keyed) ∧
    ((ordered true).same (ordered false) ∧ (ordered false).same (ordered true)) ∧
    (ordered false).same (ordered false) ∧
    ¬ spoiled.same spoiled ∧
    ∃ t, bothOrders.perform (.compare (.copy "x") (.copy "y")) =
      .ok (.compared true true, t) := by
  have hx : (ordered true).Keyed := by simp [ordered]
  have hy : (ordered false).Keyed := by simp [ordered]
  have hs : spoiled.Keyed := by simp [spoiled]
  have hxy : (ordered true).same (ordered false) := by decide
  obtain ⟨hsymm, -, -, -, hcompare, -⟩ := same_partial_equivalence hs hx hy
  obtain ⟨-, htrans, -⟩ := same_partial_equivalence hy hx hy
  obtain ⟨-, -, hself, -⟩ := same_partial_equivalence hs hs hs
  have refl {v : Value} (hv : v.Keyed) : SameTree v v :=
    (Corresponds.refl_iff hv).2 fun _ _ => rfl
  refine ⟨⟨hx, hy, hs⟩, ⟨hxy, hsymm hxy⟩, htrans (hsymm hxy) hxy, fun h => ?_, ?_⟩
  · have hnan := hself.1 h _ (.entry List.mem_cons_self (.item List.mem_cons_self (.refl _)))
    exact Bool.noConfusion hnan
  · have hlx : bothOrders.slots.lookup "x" = some (.value (ordered true)) := rfl
    have hly : (bothOrders.onHeap (·.retain (ordered true))).slots.lookup "y" =
        some (.value (ordered false)) := rfl
    obtain ⟨t, ht⟩ := hcompare bothOrders _ _ (.copy "x") (.copy "y") _ _ hx hy (refl hx) (refl hy)
      (Session.build_copy hlx) (Session.build_copy hly)
    rw [hxy, hsymm hxy] at ht
    exact ⟨t, ht⟩

end Value
end GraphStack
