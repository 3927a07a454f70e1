import GraphStack.Proofs.Session.Slots
import GraphStack.Session.Recipe

/-!
# Sessions as executions

What the slots of a session hold, together with what a command has in hand, is what the caller of an
execution holds. `Session.Follows` says that a session came out of another by steps of the execution
while the values in hand changed from one list to another; storing, moving out and building from a
recipe are such moves.
-/

namespace GraphStack

open Execution

namespace Session

/-- The moment at which a command has `xs` in hand besides what the slots hold. -/
def holding (s : Session) (xs : List Holding) : Execution :=
  ⟨s.heap, xs ++ s.slots.map (·.2), [], []⟩

/-- The moment between two commands. -/
def moment (s : Session) : Execution := s.holding []

structure Follows (s : Session) (xs : List Holding) (s' : Session) (xs' : List Holding) :
    Prop where
  leads : Leads (s.holding xs) (s'.holding xs')
  ascending : Ascending s'.slots
  budgets : s'.budgets = s.budgets

variable {s s' : Session} {xs xs' : List Holding} {x : Holding} {v : Value} {name : String}
  {id : NodeId}

namespace Follows

theorem trans {s'' : Session} {xs'' : List Holding} (hf : Follows s xs s' xs')
    (hf' : Follows s' xs' s'' xs'') : Follows s xs s'' xs'' :=
  ⟨hf.leads.trans hf'.leads, hf'.ascending, hf'.budgets.trans hf.budgets⟩

theorem refl (ho : Ascending s.slots) : Follows s xs s xs := ⟨.refl _, ho, rfl⟩

/-- A move of the caller that leaves the slots alone. -/
theorem onHeap {f : Heap → Heap} (ho : Ascending s.slots)
    (hl : Leads (s.holding xs) ⟨f s.heap, xs' ++ s.slots.map (·.2), [], []⟩) :
    Follows s xs (s.onHeap f) xs' := ⟨hl, ho, rfl⟩

theorem deal {f : Heap → Heap} (ho : Ascending s.slots)
    (hd : Dealing [] s.heap (xs ++ s.slots.map (·.2)) (f s.heap) (xs' ++ s.slots.map (·.2))) :
    Follows s xs (s.onHeap f) xs' := onHeap ho (.deal hd)

/-- A change of what is in hand alone. -/
theorem inHand (ho : Ascending s.slots)
    (hd : Dealing [] s.heap (xs ++ s.slots.map (·.2)) s.heap (xs' ++ s.slots.map (·.2))) :
    Follows s xs s xs' := ⟨.deal hd, ho, rfl⟩

theorem arrange (ho : Ascending s.slots) (hp : xs.Perm xs') : Follows s xs s xs' :=
  inHand ho (.arrange (hp.append_right _))

end Follows

/-! ## Slots -/

/-- What is stored comes out of the hand, and what it replaces is let go of. -/
theorem follows_store (ho : Ascending s.slots) (name : String) (x : Holding) :
    Follows s (x :: xs) (s.store name x) xs := by
  have ho' := ho.putNamed name x
  cases hl : s.slots.lookup name with
  | none =>
    have hp := (putNamed_perm_of_none (x := x) hl).map (·.2)
    have he : s.store name x = { s with slots := putNamed name x s.slots } := by
      simp only [store, hl]
    rw [he]
    refine ⟨.arrange ?_, ho', rfl⟩
    exact List.perm_middle.symm.trans (hp.symm.append_left xs)
  | some y =>
    have hp := (putNamed_perm_of_some (x := x) ho hl).map (·.2)
    have he : s.store name x =
        onHeap { s with slots := putNamed name x s.slots } (·.releaseHolding y) := by
      simp only [store, hl]
    rw [he]
    refine ⟨?_, ho', rfl⟩
    have harrange : Leads (s.holding (x :: xs))
        ⟨s.heap, y :: (xs ++ (putNamed name x s.slots).map (·.2)), [], []⟩ := by
      apply Leads.arrange
      exact (List.perm_middle.symm.trans (hp.symm.append_left xs)).trans List.perm_middle
    exact harrange.trans (.releaseHolding y)

theorem follows_vacate (ho : Ascending s.slots) (hl : s.slots.lookup name = some x) :
    Follows s xs (s.vacate name) (x :: xs) := by
  have hp := (eraseNamed_perm ho hl).map (·.2)
  refine ⟨.arrange ?_, ho.eraseNamed name, rfl⟩
  exact (hp.symm.append_left xs).trans List.perm_middle

theorem follows_moveOut (ho : Ascending s.slots) (hm : s.moveOut name = .ok (v, s')) :
    Follows s xs s' (.value v :: xs) := by
  unfold moveOut at hm
  split at hm
  · next w hl =>
    cases hm
    exact follows_vacate ho hl
  · next id hl =>
    cases hm
    exact (follows_vacate ho hl).trans (.inHand (ho.eraseNamed name) .link)
  · cases hm
  · cases hm

theorem mem_of_node (hn : s.node name = .ok id) : .strong id ∈ s.slots.map (·.2) := by
  unfold node at hn
  split at hn
  · next id' hl =>
    cases hn
    exact List.mem_map_of_mem (mem_of_lookup hl)
  · cases hn
  · cases hn

theorem mem_of_heldValue (hv : s.heldValue name = .ok v) : .value v ∈ s.slots.map (·.2) := by
  unfold heldValue at hv
  split at hv
  · next w hl =>
    cases hv
    exact List.mem_map_of_mem (mem_of_lookup hl)
  · cases hv
  · cases hv

/-- The node of a slot can be looked at. -/
theorem visible_of_node (xs : List Holding) (hn : s.node name = .ok id) :
    s.heap.Visible (xs ++ s.slots.map (·.2) ++ ([] : List NodeId).map .strong) (.node id) := by
  apply Heap.Visible.handle
  rw [List.map_nil, List.append_nil]
  exact List.mem_append_right _ (mem_of_node hn)

/-! ## Recipes -/

theorem follows_nestedIn (ho : Ascending s.slots) (n : Nat) (v : Value) :
    Follows s (.value v :: xs) s (.value (nestedIn n v) :: xs) := by
  induction n generalizing v with
  | zero => exact .refl ho
  | succ n ih =>
    have hd : Dealing [] s.heap ([v].map .value ++ (xs ++ s.slots.map (·.2))) s.heap
        (.value (.list [v]) :: (xs ++ s.slots.map (·.2))) := .list
    exact (Follows.inHand ho hd).trans (ih (.list [v]))

/-- A value under a key takes the place of an earlier one, which is left over. -/
theorem putEntry_perm (key : String) (v : Value) (es : List (String × Value)) :
    match es.lookup key with
    | some old => (old :: (putEntry key v es).map (·.2)).Perm (v :: es.map (·.2))
    | none => ((putEntry key v es).map (·.2)).Perm (v :: es.map (·.2)) := by
  induction es with
  | nil => exact .refl _
  | cons e es ih =>
    rw [List.lookup_cons]
    by_cases he : e.1 = key
    · rw [beq_iff_eq.2 he.symm, putEntry, if_pos he]
      exact .swap _ _ _
    · rw [beq_eq_false_iff_ne.2 (Ne.symm he), putEntry, if_neg he]
      cases hl : es.lookup key with
      | none =>
        rw [hl] at ih
        exact (ih.cons e.2).trans (.swap _ _ _)
      | some old =>
        rw [hl] at ih
        exact ((List.Perm.swap _ _ _).trans (ih.cons e.2)).trans (.swap _ _ _)

mutual
theorem follows_build : ∀ (r : Recipe) (xs : List Holding) {s s' : Session} {v : Value},
    Ascending s.slots → s.build r = .ok (v, s') → Follows s xs s' (.value v :: xs)
  | .nil, _, _, _, _, ho, hb => by
    cases hb
    exact .inHand ho (.scalar rfl)
  | .bool _, _, _, _, _, ho, hb => by
    cases hb
    exact .inHand ho (.scalar rfl)
  | .text _, _, _, _, _, ho, hb => by
    cases hb
    exact .inHand ho (.scalar rfl)
  | .repeated _ _, _, _, _, _, ho, hb => by
    cases hb
    exact .inHand ho (.scalar rfl)
  | .number _, _, _, _, _, ho, hb => by
    cases hb
    exact .inHand ho (.scalar rfl)
  | .integer _, _, _, _, _, ho, hb => by
    cases hb
    exact .inHand ho (.scalar rfl)
  | .list items, xs, s, s', v, ho, hb => by
    rw [build] at hb
    split at hb
    · cases hb
    · next vs t hvs =>
      cases hb
      have hf := follows_buildAll items xs ho hvs
      refine hf.trans (.inHand hf.ascending ?_)
      rw [List.append_assoc]
      exact .list
  | .map entries, xs, s, s', v, ho, hb => by
    rw [build] at hb
    split at hb
    · cases hb
    · next es t hes =>
      cases hb
      have hf := follows_buildEntries entries xs ho hes
      refine hf.trans (.deal hf.ascending ?_)
      rw [List.append_assoc]
      exact .map
  | .nested n r, xs, s, s', v, ho, hb => by
    rw [build] at hb
    split at hb
    · cases hb
    · next w t hw =>
      cases hb
      have hf := follows_build r xs ho hw
      exact hf.trans (follows_nestedIn hf.ascending n w)
  | .fresh r, xs, s, s', v, ho, hb => by
    rw [build] at hb
    split at hb
    · cases hb
    · next w t hw =>
      cases hb
      have hf := follows_build r xs ho hw
      refine hf.trans (.onHeap hf.ascending ?_)
      have hbuild : Leads (t.holding (.value w :: xs))
          ⟨t.heap.build .single w none, .strong t.heap.nextNode :: (xs ++ t.slots.map (·.2)),
            [], []⟩ :=
        .construct_ok (fun b hb => by cases hb) (Heap.construct_direct t.heap .single w)
      exact hbuild.trans (.deal .link)
  | .share name, xs, s, s', v, ho, hb => by
    rw [build] at hb
    split at hb
    · cases hb
    · next id hn =>
      cases hb
      refine .onHeap ho ?_
      exact (Leads.deal (.grasp (visible_of_node xs hn))).trans (.deal .link)
  | .move name, xs, s, s', v, ho, hb => follows_moveOut ho hb
  | .copy name, xs, s, s', v, ho, hb => by
    rw [build] at hb
    split at hb
    · cases hb
    · next w hw =>
      cases hb
      exact .deal ho (.clone (List.mem_append_right _ (mem_of_heldValue hw)))

theorem follows_buildAll : ∀ (rs : List Recipe) (xs : List Holding) {s s' : Session}
    {vs : List Value}, Ascending s.slots → s.buildAll rs = .ok (vs, s') →
      Follows s xs s' (vs.map .value ++ xs)
  | [], _, _, _, _, ho, hb => by
    cases hb
    exact .refl ho
  | r :: rs, xs, s, s', vs, ho, hb => by
    rw [buildAll] at hb
    split at hb
    · cases hb
    · next v t hv =>
      split at hb
      · cases hb
      · next ws u hw =>
        cases hb
        have hf := follows_build r xs ho hv
        have hf' := follows_buildAll rs (.value v :: xs) hf.ascending hw
        exact (hf.trans hf').trans (.arrange hf'.ascending List.perm_middle)

theorem follows_buildEntries : ∀ (rest : List (String × Recipe)) (xs : List Holding)
    {s s' : Session} {done es : List (String × Value)}, Ascending s.slots →
      s.buildEntries done rest = .ok (es, s') →
      Follows s ((done.map (·.2)).map .value ++ xs) s' ((es.map (·.2)).map .value ++ xs)
  | [], _, _, _, _, _, ho, hb => by
    cases hb
    exact .refl ho
  | (key, r) :: rest, xs, s, s', done, es, ho, hb => by
    rw [buildEntries] at hb
    split at hb
    · cases hb
    · next v t hv =>
      have hf := follows_build r ((done.map (·.2)).map .value ++ xs) ho hv
      have hput := putEntry_perm key v done
      cases hl : done.lookup key with
      | none =>
        rw [hl] at hput
        simp only [hl] at hb
        have hp : (.value v :: ((done.map (·.2)).map .value ++ xs)).Perm
            (((putEntry key v done).map (·.2)).map Holding.value ++ xs) :=
          (hput.symm.map Holding.value).append_right xs
        have hf' := hf.trans (.arrange hf.ascending hp)
        exact hf'.trans (follows_buildEntries rest xs hf'.ascending hb)
      | some old =>
        rw [hl] at hput
        simp only [hl] at hb
        have hp : (.value v :: ((done.map (·.2)).map .value ++ xs)).Perm
            (.value old :: (((putEntry key v done).map (·.2)).map Holding.value ++ xs)) :=
          (hput.symm.map Holding.value).append_right xs
        have hf' := hf.trans (.arrange hf.ascending hp)
        have hf'' := hf'.trans (.onHeap (f := (·.release old)) hf'.ascending .release)
        exact hf''.trans (follows_buildEntries rest xs hf''.ascending hb)
end

end Session
end GraphStack
