import GraphStack.Session.Recipe
import Mathlib

/-!
# The shape of a value

A value is read as a tree whose inner nodes are lists and maps. `Value.Contains` goes down into the
tree, `Value.Keyed` says that every map in it has each key once, and `Value.Corresponds` compares two
trees position by position and key by key, with a relation of one's own for the numbers. Neither the
payloads of the linked nodes, nor the order of the entries, nor the names of the shared trees are
part of the shape.
-/

namespace GraphStack

namespace Value

/-- A proof about all values, with one case for each kind of node of the tree. -/
theorem tree_induction {P : Value → Prop} (nil : P .nil) (bool : ∀ b, P (.bool b))
    (number : ∀ x, P (.number x)) (text : ∀ s, P (.text s))
    (list : ∀ vs : List Value, (∀ v ∈ vs, P v) → P (.list vs))
    (map : ∀ t es, (∀ e ∈ es, P e.2) → P (.map t es)) (node : ∀ id, P (.node id)) (v : Value) :
    P v := by
  refine @Value.rec P (fun vs => ∀ v ∈ vs, P v) (fun es => ∀ e ∈ es, P e.2) (fun e => P e.2)
    nil bool number text list map node ?_ ?_ ?_ ?_ (fun _ _ h => h) v
  · exact List.forall_mem_nil _
  · exact fun v vs hv hvs => List.forall_mem_cons.2 ⟨hv, hvs⟩
  · exact List.forall_mem_nil _
  · exact fun e es he hes => List.forall_mem_cons.2 ⟨he, hes⟩

/-- The second value is the first or lies in one of its items or entries. -/
inductive Contains : Value → Value → Prop
  | refl (v : Value) : Contains v v
  | item {vs : List Value} {v w : Value} (hv : v ∈ vs) (hc : v.Contains w) : Contains (.list vs) w
  | entry {t : MapId} {es : List (String × Value)} {e : String × Value} {w : Value} (he : e ∈ es)
      (hc : e.2.Contains w) : Contains (.map t es) w

/-- A hash map has each key once. -/
def Keyed (v : Value) : Prop := ∀ t es, v.Contains (.map t es) → (es.map (·.1)).Nodup

variable {v w : Value} {vs ws : List Value} {t t' : MapId} {es fs : List (String × Value)}
  {e : String × Value} {x y : Double}

namespace Keyed

theorem item (hk : (list vs).Keyed) (hv : v ∈ vs) : v.Keyed :=
  fun t es hc => hk t es (.item hv hc)

theorem entry (hk : (map t es).Keyed) (he : e ∈ es) : e.2.Keyed :=
  fun t es hc => hk t es (.entry he hc)

theorem nodup (hk : (map t es).Keyed) : (es.map (·.1)).Nodup := hk t es (.refl _)

end Keyed

@[simp] theorem keyed_list : (list vs).Keyed ↔ ∀ v ∈ vs, v.Keyed := by
  refine ⟨fun hk v hv => hk.item hv, fun hk t es hc => ?_⟩
  cases hc with
  | item hv hc => exact hk _ hv t es hc

@[simp] theorem keyed_map :
    (map t es).Keyed ↔ (es.map (·.1)).Nodup ∧ ∀ e ∈ es, e.2.Keyed := by
  refine ⟨fun hk => ⟨hk.nodup, fun e he => hk.entry he⟩, fun ⟨hn, hk⟩ t' es' hc => ?_⟩
  cases hc with
  | refl => exact hn
  | entry he hc => exact hk _ he t' es' hc

@[simp] theorem keyed_nil : nil.Keyed := by rintro t es (_ | _)

@[simp] theorem keyed_bool (b : Bool) : (bool b).Keyed := by rintro t es (_ | _)

@[simp] theorem keyed_number (x : Double) : (number x).Keyed := by rintro t es (_ | _)

@[simp] theorem keyed_text (s : String) : (text s).Keyed := by rintro t es (_ | _)

@[simp] theorem keyed_node (id : NodeId) : (node id).Keyed := by rintro t es (_ | _)

/-! ## Corresponding values -/

/-- The two values have the same shape, with numbers in the relation at corresponding places. Maps
correspond by their keys. -/
inductive Corresponds (num : Double → Double → Prop) : Value → Value → Prop
  | nil : Corresponds num .nil .nil
  | bool (b : Bool) : Corresponds num (.bool b) (.bool b)
  | number {x y : Double} (h : num x y) : Corresponds num (.number x) (.number y)
  | text (s : String) : Corresponds num (.text s) (.text s)
  | list {vs ws : List Value} (hl : vs.length = ws.length)
      (hi : ∀ (i : Nat) v w, vs[i]? = some v → ws[i]? = some w → Corresponds num v w) :
      Corresponds num (.list vs) (.list ws)
  | map {t t' : MapId} {es fs : List (String × Value)}
      (hk : ∀ k, k ∈ es.map (·.1) ↔ k ∈ fs.map (·.1))
      (he : ∀ k v w, (k, v) ∈ es → (k, w) ∈ fs → Corresponds num v w) :
      Corresponds num (.map t es) (.map t' fs)
  | node (id : NodeId) : Corresponds num (.node id) (.node id)

/-- The same tree: numbers with the same bits, links to the same nodes. Maps may list their entries
in different orders and need not be copies of each other. -/
abbrev SameTree : Value → Value → Prop := Corresponds (· = ·)

theorem exists_getElem? {i : Nat} (hl : vs.length = ws.length) (hv : vs[i]? = some v) :
    ∃ w, ws[i]? = some w := by
  have hi : i < ws.length := hl ▸ (List.getElem?_eq_some_iff.1 hv).1
  exact ⟨ws[i], List.getElem?_eq_getElem hi⟩

theorem exists_entry {k : String} (hk : k ∈ es.map (·.1)) : ∃ v, (k, v) ∈ es := by
  obtain ⟨e, he, rfl⟩ := List.mem_map.1 hk
  exact ⟨e.2, he⟩

/-- A key leads to one value. -/
theorem entry_unique {k : String} (hn : (es.map (·.1)).Nodup) (hv : (k, v) ∈ es)
    (hw : (k, w) ∈ es) : v = w :=
  congrArg Prod.snd (List.inj_on_of_nodup_map hn hv hw rfl)

namespace Corresponds

variable {num num' num'' : Double → Double → Prop} {u : Value}

theorem symm (hnum : ∀ x y, num x y → num' y x) (h : Corresponds num v w) :
    Corresponds num' w v := by
  induction h with
  | nil => exact .nil
  | bool b => exact .bool b
  | number h => exact .number (hnum _ _ h)
  | text s => exact .text s
  | list hl _ ih => exact .list hl.symm fun i w v hw hv => ih i v w hv hw
  | map hk _ ih => exact .map (fun k => (hk k).symm) fun k w v hw hv => ih k v w hv hw
  | node id => exact .node id

theorem trans (hnum : ∀ x y z, num x y → num' y z → num'' x z) (h : Corresponds num u v)
    (h' : Corresponds num' v w) : Corresponds num'' u w := by
  induction h generalizing w with
  | nil => cases h'; exact .nil
  | bool b => cases h'; exact .bool b
  | number h =>
    cases h' with
    | number h' => exact .number (hnum _ _ _ h h')
  | text s => cases h'; exact .text s
  | list hl _ ih =>
    cases h' with
    | list hl' hi' =>
      refine .list (hl.trans hl') fun i u w hu hw => ?_
      obtain ⟨v, hv⟩ := exists_getElem? hl hu
      exact ih i u v hu hv (hi' i v w hv hw)
  | map hk _ ih =>
    cases h' with
    | map hk' he' =>
      refine .map (fun k => (hk k).trans (hk' k)) fun k u w hu hw => ?_
      obtain ⟨v, hv⟩ := exists_entry ((hk k).1 (List.mem_map_of_mem hu))
      exact ih k u v hu hv (he' k v w hv hw)
  | node id => cases h'; exact .node id

/-- A value corresponds to itself as far as its numbers do. -/
theorem refl_iff (hk : v.Keyed) :
    Corresponds num v v ↔ ∀ x, v.Contains (.number x) → num x x := by
  constructor
  · intro h x hx
    induction v using tree_induction with
    | nil => cases hx
    | bool b => cases hx
    | number y =>
      cases hx
      cases h with
      | number h => exact h
    | text s => cases hx
    | list vs ih =>
      cases hx with
      | item hv hc =>
        obtain ⟨i, hi⟩ := List.mem_iff_getElem?.1 hv
        cases h with
        | list _ h => exact ih _ hv (hk.item hv) (h i _ _ hi hi) hc
    | map t es ih =>
      cases hx with
      | entry he hc =>
        cases h with
        | map _ h => exact ih _ he (hk.entry he) (h _ _ _ he he) hc
    | node id => cases hx
  · intro h
    induction v using tree_induction with
    | nil => exact .nil
    | bool b => exact .bool b
    | number x => exact .number (h x (.refl _))
    | text s => exact .text s
    | list vs ih =>
      refine .list rfl fun i v w hv hw => ?_
      cases Option.some.inj (hv.symm.trans hw)
      have hm := List.mem_of_getElem? hv
      exact ih v hm (hk.item hm) fun x hx => h x (.item hm hx)
    | map t es ih =>
      refine .map (fun _ => Iff.rfl) fun k v w hv hw => ?_
      cases entry_unique hk.nodup hv hw
      exact ih _ hv (hk.entry hv) fun x hx => h x (.entry hv hx)
    | node id => exact .node id

end Corresponds

theorem SameTree.symm (h : SameTree v w) : SameTree w v := Corresponds.symm (fun _ _ => Eq.symm) h

/-- A relation of numbers tells values apart only by their trees. -/
theorem SameTree.corresponds_iff {num : Double → Double → Prop} {v' w' : Value}
    (hv : SameTree v v') (hw : SameTree w w') : Corresponds num v w ↔ Corresponds num v' w' := by
  have move {v v' w w' : Value} (hv : SameTree v v') (hw : SameTree w w')
      (h : Corresponds num v' w') : Corresponds num v w := by
    have hw' : Corresponds num v' w :=
      h.trans (fun x y z hxy (hyz : y = z) => hyz ▸ hxy) hw.symm
    exact Corresponds.trans (fun x y z (hxy : x = y) hyz => hxy ▸ hyz) hv hw'
  exact ⟨move hv.symm hw.symm, move hv hw⟩

end Value
end GraphStack
