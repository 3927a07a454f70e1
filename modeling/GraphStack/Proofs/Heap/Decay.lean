import GraphStack.Proofs.Heap.Leases

/-!
# What a release takes away

A release never adds a handle to what is inside the heap, never brings a node back to life, and
clears the payload of a node that is alive only when nothing but the release holds that node.
-/

namespace GraphStack.Heap

variable {h : Heap} {id : NodeId} {t : Task} {ts : List Task} {o : List Holding}

/-! ## Handles inside the heap -/

theorem inside_addStrong (h : Heap) (id : NodeId) (x : Handle) :
    (h.addStrong id).inside x = h.inside x := by
  have hp (c : Cell) : { c with strong := c.strong + 1 }.payload = c.payload := rfl
  exact inside_modifyCell hp x

theorem inside_dropStrong (h : Heap) (id : NodeId) (x : Handle) :
    (h.dropStrong id).inside x = h.inside x := by
  have hp (c : Cell) : { c with strong := c.strong - 1 }.payload = c.payload := rfl
  exact inside_modifyCell hp x

theorem inside_dropCopy (h : Heap) (t : MapId) (x : Handle) :
    (h.dropCopy t).inside x = h.inside x := by
  have hp (c : Tree) : { c with copies := c.copies - 1 }.entries = c.entries := rfl
  exact inside_modifyTree hp x

theorem inside_clear_le (h : Heap) (id : NodeId) (x : Handle) :
    (h.setPayload id .nil).inside x ≤ h.inside x := by
  by_cases hb : id.number < h.cells.size
  · have hi := inside_setPayload hb .nil x
    simp only [Value.handles, List.count_nil] at hi
    omega
  · have hp (id' : NodeId) : ((h.setPayload id .nil).cell id').payload = (h.cell id').payload := by
      rw [setPayload, cell_modifyCell, if_neg fun hi => hb hi.2]
    exact (inside_congr (size_modifyCell _) rfl hp (fun _ => rfl) x).le

theorem inside_perform_le (h : Heap) (t : Task) (x : Handle) :
    (h.perform t).2.inside x ≤ h.inside x := by
  have he := h.effect_perform t
  generalize (h.perform t).2 = h' at he ⊢
  cases he with
  | keep => rfl
  | refuse => rfl
  | @detach _ id tail =>
    rw [← inside_addStrong h tail x]
    exact inside_clear_le _ id x
  | dropCopy => exact (inside_dropCopy h _ x).le
  | @fell t =>
    have hi := inside_fell (h := h.dropCopy t) t x
    rw [inside_dropCopy] at hi
    exact Nat.le.intro hi
  | dropStrong => exact (inside_dropStrong h _ x).le
  | @destroy id =>
    rw [← inside_dropStrong h id x]
    exact inside_clear_le _ id x
  | endLease => exact ((sameStore_endLease h _).inside x).le

/-! ## Destroyed nodes -/

theorem strong_dropStrong_le (h : Heap) (id id' : NodeId) :
    ((h.dropStrong id).cell id').strong ≤ (h.cell id').strong := by
  rw [dropStrong, cell_modifyCell]
  split
  · next hi =>
    rw [← hi.1]
    exact Nat.sub_le _ 1
  · exact le_refl _

/-- A destroyed node stays destroyed. -/
theorem Sound.strong_perform_eq_zero (hs : h.Sound (t.holdings ++ o))
    (hz : (h.cell id).strong = 0) : ((h.perform t).2.cell id).strong = 0 := by
  have he := h.effect_perform t
  generalize (h.perform t).2 = h' at he ⊢
  cases he with
  | keep => exact hz
  | refuse => exact hz
  | detach _ _ hp => exact (hs.strong_detach_eq_zero hp id).2 hz
  | dropCopy => exact hz
  | fell => exact hz
  | dropStrong => exact Nat.le_zero.1 ((strong_dropStrong_le h _ id).trans hz.le)
  | destroy =>
    rw [strong_setPayload]
    exact Nat.le_zero.1 ((strong_dropStrong_le h _ id).trans hz.le)
  | endLease => exact ((sameStore_endLease h _).strong id).trans hz

/-! ## Payloads -/

theorem payload_detach (h : Heap) (id tail id' : NodeId) :
    (h.detach id tail).payload id' =
      if id = id' ∧ id.number < h.cells.size then .nil else h.payload id' := by
  have hp : ((h.addStrong tail).cell id').payload = (h.cell id').payload :=
    payload_addStrong h id' tail
  have hz : (h.addStrong tail).cells.size = h.cells.size := size_modifyCell _
  rw [payload, detach, setPayload, cell_modifyCell, hz]
  split
  · rfl
  · exact hp

theorem payload_clear (h : Heap) (id id' : NodeId) :
    (h.setPayload id .nil).payload id' = h.payload id' ∨
      (h.setPayload id .nil).payload id' = .nil := by
  rw [payload, setPayload, cell_modifyCell]
  split
  · exact .inr rfl
  · exact .inl rfl

/-- A task puts no payload in place but nil. -/
theorem payload_perform_eq (h : Heap) (t : Task) (id : NodeId) :
    (h.perform t).2.payload id = h.payload id ∨ (h.perform t).2.payload id = .nil := by
  have he := h.effect_perform t
  generalize (h.perform t).2 = h' at he ⊢
  cases he with
  | keep => exact .inl rfl
  | refuse => exact .inl rfl
  | @detach _ id' tail =>
    have hp : (h.addStrong tail).payload id = h.payload id := payload_addStrong h id tail
    rw [← hp]
    exact payload_clear _ id' id
  | dropCopy => exact .inl rfl
  | fell => exact .inl rfl
  | dropStrong => exact .inl (payload_dropStrong h _ id)
  | @destroy id' =>
    have hp : (h.dropStrong id').payload id = h.payload id := payload_dropStrong h id' id
    rw [← hp]
    exact payload_clear _ id' id
  | endLease => exact .inl ((sameStore_endLease h _).payload id)

/-- The payload of a node that stays alive changes only where a link is taken out of a frame that
has one handle. -/
theorem payload_perform (h : Heap) (t : Task) (ha : ((h.perform t).2.cell id).strong ≠ 0) :
    (h.perform t).2.payload id = h.payload id ∨
      (t = .unlink id ∨ t = .walk id) ∧ (h.cell id).strong = 1 ∧
        (h.perform t).2.payload id = .nil := by
  have he := h.effect_perform t
  generalize (h.perform t).2 = h' at he ha ⊢
  cases he with
  | keep => exact .inl rfl
  | refuse => exact .inl rfl
  | @detach _ id' tail ht h1 =>
    rw [payload_detach]
    by_cases hn : id' = id
    · subst hn
      exact .inr ⟨ht, h1, if_pos ⟨rfl, built_of_strong (by omega)⟩⟩
    · exact .inl (if_neg fun hi => hn hi.1)
  | dropCopy => exact .inl rfl
  | fell => exact .inl rfl
  | dropStrong => exact .inl (payload_dropStrong h _ id)
  | @destroy id' hz =>
    have hn : id' ≠ id := by
      rintro rfl
      rw [strong_setPayload] at ha
      exact ha hz
    exact .inl ((payload_setPayload_of_ne hn).trans (payload_dropStrong h _ id))
  | endLease => exact .inl ((sameStore_endLease h _).payload id)

end GraphStack.Heap
