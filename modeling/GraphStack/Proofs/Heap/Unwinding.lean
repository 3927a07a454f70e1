import GraphStack.Proofs.Heap.Plain

/-!
# How a release ends

A handle is doomed when nobody who stays has it and every payload and every tree it is in belongs
to something doomed. However a release goes about it, it clears payloads and trees of doomed things
only, and it ends when everything doomed is gone: so all ways to release the same things from the
same heap end in the same cells, trees and budgets.
-/

namespace GraphStack.Heap

/-- What a release is going to take away, if `kept` is what others hold meanwhile. -/
inductive Doomed (h : Heap) (kept : List Handle) : Handle → Prop
  | intro {x : Handle} (hk : x ∉ kept)
      (hp : ∀ id, x ∈ (h.cell id).payload.handles → Doomed h kept (.strong id))
      (ht : ∀ t, x ∈ (h.tree t).handles → Doomed h kept (.tree t)) : Doomed h kept x

/-- A cell without what a release may change. -/
def frame (c : Cell) : Cell := { c with strong := 0, weak := 0, payload := .nil, lease := none }

/-- A budget without what a release may change. -/
def terms (b : Budget) : Budget := { b with live := 0 }

/-- What a release that began in one heap has made of it so far. -/
structure Settling (h₀ : Heap) (kept : List Handle) (h : Heap) : Prop where
  cells : h.cells.size = h₀.cells.size
  trees : h.trees.size = h₀.trees.size
  budgets : h.budgets.size = h₀.budgets.size
  refusals : h.refusals = h₀.refusals
  frame : ∀ id, frame (h.cell id) = frame (h₀.cell id)
  payload : ∀ id, (h.cell id).payload = (h₀.cell id).payload ∨
    (h.cell id).payload = .nil ∧ h₀.Doomed kept (.strong id)
  lease : ∀ id, (h.cell id).lease = (h₀.cell id).lease ∨
    (h.cell id).lease = none ∧ h₀.Doomed kept (.strong id)
  entries : ∀ t, (h.tree t).entries = (h₀.tree t).entries ∨
    (h.tree t).entries = [] ∧ h₀.Doomed kept (.tree t)
  terms : ∀ b, terms (h.budget b) = terms (h₀.budget b)

variable {h₀ h h' : Heap} {kept : List Handle} {id : NodeId} {t : MapId}

theorem Doomed.notMem {x : Handle} (hd : h.Doomed kept x) : x ∉ kept := by
  cases hd with
  | intro hk => exact hk

namespace Settling

theorem refl (h : Heap) (kept : List Handle) : Settling h kept h :=
  ⟨rfl, rfl, rfl, rfl, fun _ => rfl, fun _ => .inl rfl, fun _ => .inl rfl, fun _ => .inl rfl,
    fun _ => rfl⟩

/-- A handle that is nowhere in the heap any more, and that nobody keeps, was doomed. -/
theorem doomed (hs : Settling h₀ kept h) {x : Handle} (hi : h.inside x = 0) (hk : x ∉ kept) :
    h₀.Doomed kept x := by
  refine .intro hk ?_ ?_
  · intro id hx
    rcases hs.payload id with he | ⟨-, hd⟩
    · have hle := count_payload_le_inside (h := h) id x
      have hpos : 0 < (h.cell id).payload.handles.count x := List.count_pos_iff.2 (by rwa [he])
      omega
    · exact hd
  · intro t hx
    rcases hs.entries t with he | ⟨-, hd⟩
    · have hle := count_tree_le_inside (h := h) t x
      have hpos : 0 < (h.tree t).handles.count x :=
        List.count_pos_iff.2 (by rwa [Tree.handles, he])
      omega
    · exact hd

/-- A change of counts alone. -/
theorem modifyCell {f : Cell → Cell} (hs : Settling h₀ kept h)
    (hf : ∀ c, f c = { c with strong := (f c).strong, weak := (f c).weak }) :
    Settling h₀ kept (h.modifyCell id f) where
  cells := (size_modifyCell f).trans hs.cells
  trees := hs.trees
  budgets := hs.budgets
  refusals := hs.refusals
  frame id' := by
    rw [← hs.frame id']
    exact cell_modifyCell_keeps Heap.frame fun c => by rw [hf]; rfl
  payload id' := by
    rw [cell_modifyCell_keeps (·.payload) fun c => by rw [hf]]
    exact hs.payload id'
  lease id' := by
    rw [cell_modifyCell_keeps (·.lease) fun c => by rw [hf]]
    exact hs.lease id'
  entries := hs.entries
  terms := hs.terms

theorem addStrong (hs : Settling h₀ kept h) (id : NodeId) : Settling h₀ kept (h.addStrong id) :=
  hs.modifyCell fun _ => rfl

theorem dropStrong (hs : Settling h₀ kept h) (id : NodeId) : Settling h₀ kept (h.dropStrong id) :=
  hs.modifyCell fun _ => rfl

theorem dropWeak (hs : Settling h₀ kept h) (id : NodeId) : Settling h₀ kept (h.dropWeak id) :=
  hs.modifyCell fun _ => rfl

theorem clear (hs : Settling h₀ kept h) (hd : h₀.Doomed kept (.strong id)) :
    Settling h₀ kept (h.setPayload id .nil) where
  cells := (size_modifyCell _).trans hs.cells
  trees := hs.trees
  budgets := hs.budgets
  refusals := hs.refusals
  frame id' := by
    rw [← hs.frame id']
    exact cell_modifyCell_keeps Heap.frame fun _ => rfl
  payload id' := by
    rw [setPayload, cell_modifyCell]
    split
    · next hi => exact .inr ⟨rfl, hi.1 ▸ hd⟩
    · exact hs.payload id'
  lease id' := by
    have he : ((h.setPayload id .nil).cell id').lease = (h.cell id').lease :=
      cell_modifyCell_keeps (·.lease) fun _ => rfl
    rw [he]
    exact hs.lease id'
  entries := hs.entries
  terms := hs.terms

theorem dropCopy (hs : Settling h₀ kept h) (t : MapId) : Settling h₀ kept (h.dropCopy t) where
  cells := hs.cells
  trees := (size_modifyTree _).trans hs.trees
  budgets := hs.budgets
  refusals := hs.refusals
  frame := hs.frame
  payload := hs.payload
  lease := hs.lease
  entries t' := by
    rw [entries_dropCopy]
    exact hs.entries t'
  terms := hs.terms

theorem addCopy (hs : Settling h₀ kept h) (t : MapId) : Settling h₀ kept (h.addCopy t) where
  cells := hs.cells
  trees := (size_modifyTree _).trans hs.trees
  budgets := hs.budgets
  refusals := hs.refusals
  frame := hs.frame
  payload := hs.payload
  lease := hs.lease
  entries t' := by
    rw [entries_addCopy]
    exact hs.entries t'
  terms := hs.terms

theorem retain (hs : Settling h₀ kept h) (v : Value) : Settling h₀ kept (h.retain v) :=
  retain_induction (P := Settling h₀ kept) (fun _ id hp => hp.addStrong id)
    (fun _ t hp => hp.addCopy t) v hs

theorem fell (hs : Settling h₀ kept h) (hd : h₀.Doomed kept (.tree t)) :
    Settling h₀ kept (h.fell t) where
  cells := hs.cells
  trees := (size_modifyTree _).trans hs.trees
  budgets := hs.budgets
  refusals := hs.refusals
  frame := hs.frame
  payload := hs.payload
  lease := hs.lease
  entries t' := by
    rw [Heap.fell, tree_modifyTree]
    split
    · next hi => exact .inr ⟨rfl, hi.1 ▸ hd⟩
    · exact hs.entries t'
  terms := hs.terms

theorem endLease (hs : Settling h₀ kept h) (hb : h.Solvent)
    (hd : h₀.Doomed kept (.strong id)) : Settling h₀ kept (h.endLease id) where
  cells := (sameStore_endLease h id).size.trans hs.cells
  trees := by
    rw [(sameStore_endLease h id).trees]
    exact hs.trees
  budgets := (books_endLease h id).1.trans hs.budgets
  refusals := (books_endLease h id).2.trans hs.refusals
  frame id' := by
    rw [← hs.frame id']
    exact cell_endLease_keeps Heap.frame (fun _ => rfl) h id id'
  payload id' := by
    rw [(sameStore_endLease h id).payload]
    exact hs.payload id'
  lease id' := by
    rw [lease_endLease]
    split
    · next he => exact .inr ⟨rfl, he ▸ hd⟩
    · exact hs.lease id'
  entries t' := by
    rw [(sameStore_endLease h id).tree]
    exact hs.entries t'
  terms b := by
    rw [← hs.terms b, hb.budget_endLease]
    rfl

end Settling

/-- A release that began in one heap is under way: it still has `owned` to let go of and the leases
of `ids` to end, while others hold `kept`. -/
structure Unwinding (h₀ : Heap) (kept : List Holding) (h : Heap) (owned : List Holding)
    (ids : List NodeId) : Prop where
  sound : h.Sound (owned ++ kept)
  solvent : h.Solvent
  closing : h.Closing ids
  settling : Settling h₀ (Holding.handlesAll kept) h
  guarded : ∀ id, (h₀.cell id).readers ≠ 0 →
    ¬ h₀.Doomed (Holding.handlesAll kept) (.strong id)

namespace Unwinding

variable {kept o : List Holding} {ids : List NodeId}

theorem regroup {o' : List Holding} (hu : Unwinding h₀ kept h o ids)
    (hs : h.Sound (o' ++ kept)) : Unwinding h₀ kept h o' ids :=
  { hu with sound := hs }

/-- What the journal tells is no part of a release. -/
theorem log (hu : Unwinding h₀ kept h o ids) (event : Event) :
    Unwinding h₀ kept (h.log event) o ids where
  sound := hu.sound.sameStore ⟨rfl, fun _ => rfl, fun _ => rfl, fun _ => rfl, rfl⟩
  solvent := hu.solvent.congr rfl (fun _ => rfl) rfl
  closing := hu.closing.congr (fun _ => .rfl) fun _ => rfl
  settling := { hu.settling with }
  guarded := hu.guarded

theorem strong_ne_zero (hu : Unwinding h₀ kept h o ids)
    (hm : .strong id ∈ Holding.handlesAll o) : (h.cell id).strong ≠ 0 := by
  apply hu.sound.counter_ne_zero_of_owned (x := .strong id)
  rw [Holding.handlesAll_append]
  exact List.mem_append_left _ hm

/-- What a release has the last handle of is doomed. -/
theorem doomed (hu : Unwinding h₀ kept h o ids) {x : Handle} (hm : x ∈ Holding.handlesAll o)
    (h1 : h.counter x = 1) : h₀.Doomed (Holding.handlesAll kept) x := by
  obtain ⟨hin, hout⟩ := hu.sound.last hm h1
  exact hu.settling.doomed hin hout

theorem doomed_of_strong (hu : Unwinding h₀ kept h o ids) (hz : (h.cell id).strong = 0) :
    h₀.Doomed (Holding.handlesAll kept) (.strong id) := by
  have hc := hu.sound.counted (.strong id)
  rw [Holding.handlesAll_append, List.count_append] at hc
  simp only [counter, hz] at hc
  exact hu.settling.doomed (by omega) (List.count_eq_zero.1 (by omega))

theorem dropCopy {es : List (String × Value)}
    (hu : Unwinding h₀ kept h (.value (.map t es) :: o) ids)
    (hc : ((h.dropCopy t).tree t).copies ≠ 0) : Unwinding h₀ kept (h.dropCopy t) o ids where
  sound := by
    have hpos : (h.tree t).copies ≠ 0 :=
      hu.sound.counter_ne_zero_of_owned (x := .tree t) List.mem_cons_self
    rw [copies_dropCopy (planted_of_copies hpos)] at hc
    exact hu.sound.dropCopy (by omega)
  solvent := hu.solvent.congr rfl (fun _ => rfl) rfl
  closing := hu.closing.congr (fun _ => .rfl) fun _ => rfl
  settling := hu.settling.dropCopy t
  guarded := hu.guarded

theorem fell {es : List (String × Value)}
    (hu : Unwinding h₀ kept h (.value (.map t es) :: o) ids)
    (hc : ((h.dropCopy t).tree t).copies = 0) :
    Unwinding h₀ kept ((h.dropCopy t).fell t)
      (((h.tree t).entries.map (·.2)).map .value ++ o) ids := by
  have hpos : (h.tree t).copies ≠ 0 :=
    hu.sound.counter_ne_zero_of_owned (x := .tree t) List.mem_cons_self
  rw [copies_dropCopy (planted_of_copies hpos)] at hc
  have h1 : (h.tree t).copies = 1 := by omega
  refine ⟨?_, hu.solvent.congr rfl (fun _ => rfl) rfl,
    hu.closing.congr (fun _ => .rfl) fun _ => rfl, ?_, hu.guarded⟩
  · rw [List.append_assoc]
    exact hu.sound.fell h1
  · exact (hu.settling.dropCopy t).fell (hu.doomed (x := .tree t) List.mem_cons_self h1)

theorem dropStrong (hu : Unwinding h₀ kept h (.strong id :: o) ids)
    (hz : ((h.dropStrong id).cell id).strong ≠ 0) : Unwinding h₀ kept (h.dropStrong id) o ids := by
  have ha : (h.cell id).strong ≠ 0 := hu.strong_ne_zero List.mem_cons_self
  refine ⟨?_, (sameBooks_dropStrong h id).solvent hu.solvent, hu.closing.dropStrong ha hz,
    hu.settling.dropStrong id, hu.guarded⟩
  rw [strong_dropStrong (built_of_strong ha)] at hz
  exact hu.sound.dropStrong fun h1 => by omega

theorem dropWeak (hu : Unwinding h₀ kept h (.weak id :: o) ids) :
    Unwinding h₀ kept (h.dropWeak id) o ids where
  sound := hu.sound.dropWeak
  solvent := (sameBooks_dropWeak h id).solvent hu.solvent
  closing := by
    refine hu.closing.congr (fun id' => ?_) (sameBooks_dropWeak h id).lease
    have hk : ((h.dropWeak id).cell id').strong = (h.cell id').strong :=
      cell_modifyCell_keeps (·.strong) fun _ => rfl
    rw [hk]
  settling := hu.settling.dropWeak id
  guarded := hu.guarded

theorem destroy (hu : Unwinding h₀ kept h (.strong id :: o) ids)
    (hz : ((h.dropStrong id).cell id).strong = 0) :
    Unwinding h₀ kept ((h.dropStrong id).setPayload id .nil)
      (.value (h.cell id).payload :: o) (id :: ids) := by
  have ha : (h.cell id).strong ≠ 0 := hu.strong_ne_zero List.mem_cons_self
  have hbooks := (sameBooks_dropStrong h id).trans (sameBooks_setPayload _ id .nil)
  refine ⟨hu.sound.destroy, hbooks.solvent hu.solvent, hu.closing.destroy ha hz, ?_, hu.guarded⟩
  rw [strong_dropStrong (built_of_strong ha)] at hz
  have h1 : (h.cell id).strong = 1 := by omega
  exact (hu.settling.dropStrong id).clear (hu.doomed (x := .strong id) List.mem_cons_self h1)

theorem endLease (hu : Unwinding h₀ kept h o (id :: ids)) :
    Unwinding h₀ kept (h.endLease id) o ids where
  sound := hu.sound.sameStore (sameStore_endLease h id)
  solvent := hu.solvent.endLease id
  closing := hu.closing.endLease
  settling := hu.settling.endLease hu.solvent
    (hu.doomed_of_strong (hu.closing.destroyed id List.mem_cons_self))
  guarded := hu.guarded

/-- The link comes out of a frame that only the release holds. -/
theorem detach {tail : NodeId} (hu : Unwinding h₀ kept h o ids)
    (hm : .strong id ∈ Holding.handlesAll o) (h1 : (h.cell id).strong = 1)
    (hp : (h.cell id).payload.node? = some tail) :
    Unwinding h₀ kept (h.detach id tail) (.value (.node tail) :: .strong tail :: o) ids where
  sound := hu.sound.detach (hu.strong_ne_zero hm) hp
  solvent := (sameBooks_detach h id tail).solvent hu.solvent
  closing := hu.closing.congr (hu.sound.strong_detach_eq_zero hp) (sameBooks_detach h id tail).lease
  settling := (hu.settling.addStrong tail).clear (hu.doomed hm h1)
  guarded := hu.guarded

/-- A frame that only the release holds is read by nobody. -/
theorem readers_eq_zero (hu : Unwinding h₀ kept h o ids)
    (hm : .strong id ∈ Holding.handlesAll o) (h1 : (h.cell id).strong = 1) :
    (h.cell id).readers = 0 := by
  by_contra hr
  have hf := congrArg Cell.readers (hu.settling.frame id)
  have he : (h.cell id).readers = (h₀.cell id).readers := hf
  exact hu.guarded id (he ▸ hr) (hu.doomed (x := .strong id) hm h1)

/-! ## The two ways to release -/

/-- A frame that has one handle, which the release has, gives up its link if it has one. -/
theorem takeTail_of_held (hu : Unwinding h₀ kept h o ids)
    (hm : .strong id ∈ Holding.handlesAll o) :
    ((h.cell id).strong = 1 → (h.payload id).node? = none) ∧ h.takeTail id = (none, h) ∨
      ∃ tail, (h.cell id).strong = 1 ∧ (h.payload id).node? = some tail ∧
        h.takeTail id = (some tail, h.detach id tail) := by
  by_cases h1 : (h.cell id).strong = 1
  · have hr := hu.readers_eq_zero hm h1
    cases hp : (h.payload id).node? with
    | none =>
      have ht : h.uniqueTail? id = none := (if_pos h1).trans hp
      exact .inl ⟨fun _ => rfl, by rw [Heap.takeTail, ht]⟩
    | some tail =>
      have ht : h.uniqueTail? id = some tail := (if_pos h1).trans hp
      refine .inr ⟨tail, h1, rfl, ?_⟩
      rw [Heap.takeTail, ht]
      exact if_pos hr
  · have ht : h.uniqueTail? id = none := if_neg h1
    exact .inl ⟨fun hone => absurd hone h1, by rw [Heap.takeTail, ht]⟩

theorem takeTail (hu : Unwinding h₀ kept h o ids) (hm : .strong id ∈ Holding.handlesAll o) :
    h.takeTail id = (none, h) ∨
      ∃ tail, h.takeTail id = (some tail, h.detach id tail) ∧
        Unwinding h₀ kept (h.detach id tail) (.value (.node tail) :: .strong tail :: o) ids := by
  rcases hu.takeTail_of_held hm with ⟨-, ht⟩ | ⟨tail, h1, hp, ht⟩
  · exact .inl ht
  · exact .inr ⟨tail, ht, hu.detach hm h1 hp⟩

/-- One task of a release. A frame that is unlinked is held by a later task. -/
theorem perform {t : Task} (hu : Unwinding h₀ kept h (t.holdings ++ o) (t.closings ++ ids))
    (hb : ∀ id, t = .unlink id → .strong id ∈ Holding.handlesAll o) :
    Unwinding h₀ kept (h.perform t).2 (Task.holdingsAll (h.perform t).1 ++ o)
      (Task.closingsAll (h.perform t).1 ++ ids) := by
  have hs := hu.sound
  rw [List.append_assoc] at hs
  have hkeep (hh : (h.perform t).2 = h)
      (hc : t.closings ++ ids = Task.closingsAll (h.perform t).1 ++ ids) :
      Unwinding h₀ kept (h.perform t).2 (Task.holdingsAll (h.perform t).1 ++ o)
        (Task.closingsAll (h.perform t).1 ++ ids) := by
    have hs' := hs.perform
    rw [← List.append_assoc] at hs'
    rw [hh] at hs' ⊢
    rw [← hc]
    exact hu.regroup hs'
  match t with
  | .value (.list items) => exact hkeep rfl rfl
  | .value (.map t es) =>
    rw [perform_map]
    split
    · next hc => simpa [Task.holdings, Task.closings] using hu.fell hc
    · next hc => exact hu.dropCopy hc
  | .value (.node id) => exact hkeep rfl rfl
  | .value .nil => exact hkeep rfl rfl
  | .value (.bool _) => exact hkeep rfl rfl
  | .value (.number _) => exact hkeep rfl rfl
  | .value (.text _) => exact hkeep rfl rfl
  | .values [] => exact hkeep rfl rfl
  | .values (v :: vs) => exact hkeep rfl rfl
  | .unlink id =>
    rcases hu.takeTail (hb id rfl) with ht | ⟨tail, ht, hd⟩
    · simp only [Heap.perform, ht]
      exact hu
    · simp only [Heap.perform, ht]
      exact hd
  | .walk id =>
    rcases hu.takeTail List.mem_cons_self with ht | ⟨tail, ht, hd⟩
    · simp only [Heap.perform, ht]
      exact hu
    · simp only [Heap.perform, ht]
      exact hd.regroup (hd.sound.perm (.cons _ (.swap _ _ _)))
  | .handle id =>
    rw [perform_handle]
    split
    · next hz => exact hu.destroy hz
    · next hz => exact hu.dropStrong hz
  | .close id => exact hu.endLease
  | .finish => exact hkeep rfl rfl

/-- The recursion goes through the same kinds of changes, and leaves nothing to do. -/
theorem discards :
    (∀ h v o ids, Unwinding h₀ kept h (.value v :: o) ids →
      Unwinding h₀ kept (h.discard v) o ids) ∧
    (∀ h id o ids, Unwinding h₀ kept h (.strong id :: o) ids →
      Unwinding h₀ kept (h.discardHandle id) o ids) ∧
    (∀ h vs o ids, Unwinding h₀ kept h (vs.map .value ++ o) ids →
      Unwinding h₀ kept (h.discardAll vs) o ids) := by
  refine discarding.mutual_induct
    (fun h v => ∀ o ids, Unwinding h₀ kept h (.value v :: o) ids →
      Unwinding h₀ kept (h.discard v) o ids)
    (fun h id => ∀ o ids, Unwinding h₀ kept h (.strong id :: o) ids →
      Unwinding h₀ kept (h.discardHandle id) o ids)
    (fun h vs => ∀ o ids, Unwinding h₀ kept h (vs.map .value ++ o) ids →
      Unwinding h₀ kept (h.discardAll vs) o ids)
    ?list ?fell ?dropCopy ?node ?scalar ?destroy ?dropStrong ?nil ?cons
  case list =>
    intro h vs ih o ids hu
    rw [discard_list]
    refine ih o ids (hu.regroup ?_)
    rw [List.append_assoc]
    exact hu.sound.items
  case fell =>
    intro h t es hc ih o ids hu
    rw [discard_map, if_pos hc]
    exact ih o ids (hu.fell hc)
  case dropCopy =>
    intro h t es hc o ids hu
    rw [discard_map, if_neg hc]
    exact hu.dropCopy hc
  case node =>
    intro h id ih o ids hu
    rw [discard_node]
    exact ih o ids (hu.regroup hu.sound.unlink)
  case scalar =>
    intro h v hl hm hn o ids hu
    have hv : v.handles = [] := by
      cases v with
      | list vs => exact absurd rfl (hl vs)
      | map t es => exact absurd rfl (hm t es)
      | node id => exact absurd rfl (hn id)
      | _ => rfl
    rw [discard_scalar h hl hm hn]
    exact hu.regroup (hu.sound.dropScalar hv)
  case destroy =>
    intro h id hz ih o ids hu
    rw [discardHandle_eq, if_pos hz]
    exact (ih o (id :: ids) (hu.destroy hz)).endLease
  case dropStrong =>
    intro h id hz o ids hu
    rw [discardHandle_eq, if_neg hz]
    exact hu.dropStrong hz
  case nil =>
    intro h o ids hu
    rw [discardAll_nil]
    exact hu
  case cons =>
    intro h v vs h' hw hv _ _ _ ih ih' o ids hu
    have he : h.discard v = h' := by rw [discard, hv]
    rw [discardAll_cons, he]
    apply ih' o ids
    rw [← he]
    exact ih _ ids hu

/-! ## One end -/

/-- When nothing is left to do, everything doomed is gone. -/
theorem counter_eq_zero (hu : Unwinding h₀ kept h [] []) {x : Handle}
    (hd : h₀.Doomed (Holding.handlesAll kept) x) : h.counter x = 0 := by
  induction hd with
  | @intro x hk _ _ ihp iht =>
    have hc := hu.sound.counted x
    rw [List.nil_append, List.count_eq_zero.2 hk] at hc
    by_contra hne
    have hi : h.inside x ≠ 0 := by omega
    rcases exists_of_inside hi with ⟨id, hx⟩ | ⟨t, hx⟩
    · rcases hu.settling.payload id with he | ⟨hn, -⟩
      · have hz : (h.cell id).strong = 0 := ihp id (he ▸ hx)
        rw [hu.sound.cleared id hz] at hx
        exact List.not_mem_nil hx
      · rw [hn] at hx
        exact List.not_mem_nil hx
    · rw [Tree.handles] at hx
      rcases hu.settling.entries t with he | ⟨hn, -⟩
      · have hz : (h.tree t).copies = 0 := iht t (by rwa [Tree.handles, ← he])
        rw [hu.sound.felled t hz] at hx
        exact List.not_mem_nil hx
      · rw [hn] at hx
        exact List.not_mem_nil hx

/-- The nodes that are gone in the end are the doomed ones. -/
theorem strong_eq_zero_iff (hu : Unwinding h₀ kept h [] []) :
    (h.cell id).strong = 0 ↔ h₀.Doomed (Holding.handlesAll kept) (.strong id) :=
  ⟨hu.doomed_of_strong, hu.counter_eq_zero⟩

variable {h₁ h₂ : Heap}

theorem payload_eq (hu₁ : Unwinding h₀ kept h₁ [] []) (hu₂ : Unwinding h₀ kept h₂ [] [])
    (id : NodeId) : (h₁.cell id).payload = (h₂.cell id).payload := by
  rcases hu₁.settling.payload id with he₁ | ⟨hn₁, hd⟩
  · rcases hu₂.settling.payload id with he₂ | ⟨hn₂, hd⟩
    · rw [he₁, he₂]
    · rw [hn₂, hu₁.sound.cleared id (hu₁.counter_eq_zero hd)]
  · rw [hn₁, hu₂.sound.cleared id (hu₂.counter_eq_zero hd)]

theorem entries_eq (hu₁ : Unwinding h₀ kept h₁ [] []) (hu₂ : Unwinding h₀ kept h₂ [] [])
    (t : MapId) : (h₁.tree t).entries = (h₂.tree t).entries := by
  rcases hu₁.settling.entries t with he₁ | ⟨hn₁, hd⟩
  · rcases hu₂.settling.entries t with he₂ | ⟨hn₂, hd⟩
    · rw [he₁, he₂]
    · rw [hn₂, hu₁.sound.felled t (hu₁.counter_eq_zero hd)]
  · rw [hn₁, hu₂.sound.felled t (hu₂.counter_eq_zero hd)]

theorem lease_eq_none (hu : Unwinding h₀ kept h [] [])
    (hd : h₀.Doomed (Holding.handlesAll kept) (.strong id)) : (h.cell id).lease = none := by
  by_contra hl
  exact List.not_mem_nil (hu.closing.pending id (hu.counter_eq_zero hd) hl)

theorem lease_eq (hu₁ : Unwinding h₀ kept h₁ [] []) (hu₂ : Unwinding h₀ kept h₂ [] [])
    (id : NodeId) : (h₁.cell id).lease = (h₂.cell id).lease := by
  rcases hu₁.settling.lease id with he₁ | ⟨hn₁, hd⟩
  · rcases hu₂.settling.lease id with he₂ | ⟨hn₂, hd⟩
    · rw [he₁, he₂]
    · rw [hn₂, hu₁.lease_eq_none hd]
  · rw [hn₁, hu₂.lease_eq_none hd]

theorem counter_eq (hu₁ : Unwinding h₀ kept h₁ [] []) (hu₂ : Unwinding h₀ kept h₂ [] [])
    (x : Handle) : h₁.counter x = h₂.counter x := by
  rw [hu₁.sound.counted, hu₂.sound.counted,
    inside_congr (hu₁.settling.cells.trans hu₂.settling.cells.symm)
      (hu₁.settling.trees.trans hu₂.settling.trees.symm) (hu₁.payload_eq hu₂)
      (hu₁.entries_eq hu₂)]

end Unwinding

/-- The heaps differ at most in what the journal tells. -/
structure Alike (h₁ h₂ : Heap) : Prop where
  cells : h₁.cells = h₂.cells
  trees : h₁.trees = h₂.trees
  budgets : h₁.budgets = h₂.budgets
  refusals : h₁.refusals = h₂.refusals

variable {h₁ h₂ : Heap}

theorem cells_ext (hz : h₁.cells.size = h₂.cells.size) (hc : ∀ id, h₁.cell id = h₂.cell id) :
    h₁.cells = h₂.cells := by
  apply Array.ext hz
  intro i hi hi'
  simpa [cell, Array.getD, hi, hi'] using hc ⟨i⟩

theorem trees_ext (hz : h₁.trees.size = h₂.trees.size) (hc : ∀ t, h₁.tree t = h₂.tree t) :
    h₁.trees = h₂.trees := by
  apply Array.ext hz
  intro i hi hi'
  simpa [tree, Array.getD, hi, hi'] using hc ⟨i⟩

theorem budgets_ext (hz : h₁.budgets.size = h₂.budgets.size)
    (hc : ∀ b, h₁.budget b = h₂.budget b) : h₁.budgets = h₂.budgets := by
  apply Array.ext hz
  intro i hi hi'
  simpa [budget, Array.getD, hi, hi'] using hc ⟨i⟩

theorem eq_of_frame {c d : Cell} (hf : frame c = frame d) (hs : c.strong = d.strong)
    (hw : c.weak = d.weak) (hp : c.payload = d.payload) (hl : c.lease = d.lease) : c = d := by
  cases c
  cases d
  simp_all [frame]

theorem eq_of_entries {t u : Tree} (hc : t.copies = u.copies) (he : t.entries = u.entries) :
    t = u := by
  cases t
  cases u
  simp_all

theorem eq_of_terms {b c : Budget} (ht : terms b = terms c) (hl : b.live = c.live) : b = c := by
  cases b
  cases c
  simp_all [terms]

/-- However a release goes about it, it ends in the same cells, trees and budgets. -/
theorem Unwinding.alike {kept : List Holding} (hu₁ : Unwinding h₀ kept h₁ [] [])
    (hu₂ : Unwinding h₀ kept h₂ [] []) : Alike h₁ h₂ where
  cells := by
    apply cells_ext (hu₁.settling.cells.trans hu₂.settling.cells.symm)
    intro id
    have hf := (hu₁.settling.frame id).trans (hu₂.settling.frame id).symm
    exact eq_of_frame hf (hu₁.counter_eq hu₂ (.strong id)) (hu₁.counter_eq hu₂ (.weak id))
      (hu₁.payload_eq hu₂ id) (hu₁.lease_eq hu₂ id)
  trees := by
    apply trees_ext (hu₁.settling.trees.trans hu₂.settling.trees.symm)
    intro t
    exact eq_of_entries (hu₁.counter_eq hu₂ (.tree t)) (hu₁.entries_eq hu₂ t)
  budgets := by
    apply budgets_ext (hu₁.settling.budgets.trans hu₂.settling.budgets.symm)
    intro b
    refine eq_of_terms ((hu₁.settling.terms b).trans (hu₂.settling.terms b).symm) ?_
    rw [hu₁.solvent.lent, hu₂.solvent.lent]
    exact leased_congr (hu₁.settling.cells.trans hu₂.settling.cells.symm) (hu₁.lease_eq hu₂) b
  refusals := hu₁.settling.refusals.trans hu₂.settling.refusals.symm

end GraphStack.Heap
