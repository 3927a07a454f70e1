import GraphStack.Heap.Build
import GraphStack.Proofs.Heap.Tasks

/-!
# Leases and budgets

A heap is solvent if the live count of every budget is the number of cells that have a lease of it,
and the peak is between the live count and the limit. A lease ends once, after its node has been
destroyed: `Heap.Closing` says which destroyed nodes still have theirs.
-/

open scoped BigOperators

namespace GraphStack.Heap

/-- How many cells have a lease of a budget. -/
def leased (h : Heap) (b : BudgetId) : Nat :=
  ∑ n ∈ Finset.range h.cells.size, if (h.cell ⟨n⟩).lease = some b then 1 else 0

structure Solvent (h : Heap) : Prop where
  lent : ∀ b, (h.budget b).live = h.leased b
  crest : ∀ b, (h.budget b).live ≤ (h.budget b).peak
  within : ∀ b limit, (h.budget b).limit = some limit → (h.budget b).peak ≤ limit

/-- The nodes in the list are destroyed, and no other destroyed node has a lease. -/
structure Closing (h : Heap) (ids : List NodeId) : Prop where
  once : ids.Nodup
  destroyed : ∀ id ∈ ids, (h.cell id).strong = 0
  pending : ∀ id, (h.cell id).strong = 0 → (h.cell id).lease ≠ none → id ∈ ids

variable {h h' : Heap} {id : NodeId} {b b' : BudgetId}

/-! ## Budgets -/

theorem budget_modifyBudget (f : Budget → Budget) :
    (h.modifyBudget b f).budget b' =
      if b = b' ∧ b.index < h.budgets.size then f (h.budget b) else h.budget b' := by
  have hid : b.index = b'.index ↔ b = b' := by cases b; cases b'; simp
  simp only [budget, modifyBudget, Array.getD_eq_getD_getElem?, Array.getElem?_modify, hid]
  by_cases he : b = b'
  · subst he
    by_cases hb : b.index < h.budgets.size
    · simp [hb]
    · simp [hb]
  · simp [he]

theorem budget_eq_default (hb : ¬ b.index < h.budgets.size) : h.budget b = default := by
  simp [budget, Array.getD_eq_getD_getElem?, hb]

theorem opened_of_live (hl : (h.budget b).live ≠ 0) : b.index < h.budgets.size := by
  by_contra hb
  exact hl (by rw [budget_eq_default hb]; rfl)

theorem budget_openBudget (label : String) (limit : Option Nat) :
    (h.openBudget label limit).budget b =
      if b = h.nextBudget then ⟨label, limit, 0, 0⟩ else h.budget b := by
  have hid : b.index = h.budgets.size ↔ b = h.nextBudget := by cases b; simp [nextBudget]
  simp only [budget, openBudget, Array.getD_eq_getD_getElem?, Array.getElem?_push, hid]
  split <;> rfl

theorem budget_lend (hb : b.index < h.budgets.size) :
    (h.lend b).budget b' =
      if b = b' then { h.budget b with
        live := (h.budget b).live + 1, peak := max (h.budget b).peak ((h.budget b).live + 1) }
      else h.budget b' := by
  have hl : (h.lend b).budget b' = (h.modifyBudget b fun c => { c with
      live := (h.budget b).live + 1, peak := max c.peak ((h.budget b).live + 1) }).budget b' := rfl
  rw [hl, budget_modifyBudget]
  simp only [hb, and_true]

theorem reachedLimit?_eq_none {c : Budget} :
    reachedLimit? c = none ↔ ∀ limit, c.limit = some limit → c.live < limit := by
  unfold reachedLimit?
  cases c.limit with
  | none => simp
  | some limit => simp [Option.filter]

theorem reachedLimit?_eq_some {c : Budget} {limit : Nat} :
    reachedLimit? c = some limit ↔ c.limit = some limit ∧ limit ≤ c.live := by
  unfold reachedLimit?
  cases c.limit with
  | none => simp
  | some l =>
    by_cases hl : l ≤ c.live
    · simp only [Option.filter, hl, decide_true, if_true, Option.some.injEq]
      constructor
      · rintro rfl; exact ⟨rfl, hl⟩
      · exact fun hh => hh.1
    · simp only [Option.filter, hl, decide_false, Bool.false_eq_true, if_false, Option.some.injEq,
        reduceCtorEq, false_iff]
      rintro ⟨rfl, hh⟩
      exact hl hh

/-! ## The cells that have leases -/

theorem leased_congr (hz : h'.cells.size = h.cells.size)
    (hl : ∀ id, (h'.cell id).lease = (h.cell id).lease) (b : BudgetId) :
    h'.leased b = h.leased b := by
  simp only [leased, hz, hl]

theorem leased_build (model : Model) (v : Value) (lease : Option BudgetId) (b : BudgetId) :
    (h.build model v lease).leased b = h.leased b + if lease = some b then 1 else 0 := by
  have hz : (h.build model v lease).cells.size = h.cells.size + 1 := Array.size_push ..
  have hn : ∀ n ∈ Finset.range h.cells.size,
      (if ((h.build model v lease).cell ⟨n⟩).lease = some b then 1 else 0) =
        if (h.cell ⟨n⟩).lease = some b then 1 else 0 := by
    intro n hn
    have hne : (⟨n⟩ : NodeId) ≠ h.nextNode := by
      intro he
      simp [nextNode] at he
      simp [he] at hn
    rw [cell_build, if_neg hne]
  have hl : ((h.build model v lease).cell ⟨h.cells.size⟩).lease = lease := by
    simp [cell_build, nextNode]
  simp only [leased, hz, Finset.sum_range_succ, Finset.sum_congr rfl hn, hl]

theorem lease_endLease (h : Heap) (id id' : NodeId) :
    ((h.endLease id).cell id').lease = if id = id' then none else (h.cell id').lease := by
  unfold endLease
  split
  · next hl =>
    split
    · next he => rw [← he, hl]
    · rfl
  · next b hl =>
    have hb : id.number < h.cells.size := by
      by_contra hb
      rw [cell_eq_vacant hb] at hl
      cases hl
    have hc : ((h.modifyCell id fun c => { c with lease := none }).giveBack b).cell id' =
      (h.modifyCell id fun c => { c with lease := none }).cell id' := rfl
    rw [hc, cell_modifyCell]
    simp only [hb, and_true]
    split <;> rfl

theorem leased_endLease (h : Heap) (id : NodeId) (b : BudgetId) :
    (h.endLease id).leased b + (if (h.cell id).lease = some b then 1 else 0) = h.leased b := by
  have hz : (h.endLease id).cells.size = h.cells.size := (sameStore_endLease h id).size
  by_cases hb : id.number < h.cells.size
  · have hn (n : ℕ) (hne : n ≠ id.number) : ((h.endLease id).cell ⟨n⟩).lease =
        (h.cell ⟨n⟩).lease := by
      rw [lease_endLease, if_neg (by rintro rfl; exact hne rfl)]
    have hs : ((h.endLease id).cell ⟨id.number⟩).lease = none := by
      rw [lease_endLease, if_pos rfl]
    have := sum_range_change (f := fun n => if (h.cell ⟨n⟩).lease = some b then 1 else 0)
      (g := fun n => if ((h.endLease id).cell ⟨n⟩).lease = some b then 1 else 0) hb
      (fun n hne => by rw [hn n hne])
    simp only [hs, reduceCtorEq, if_false, Nat.add_zero] at this
    simpa only [leased, hz] using this
  · have hl : (h.cell id).lease = none := by rw [cell_eq_vacant hb]; rfl
    have he : h.endLease id = h := by simp only [endLease, hl]
    rw [he, hl]
    rfl

theorem leased_ne_zero (hl : (h.cell id).lease = some b) : h.leased b ≠ 0 := by
  have := leased_endLease h id b
  rw [if_pos hl] at this
  omega

/-! ## Solvency -/

namespace Solvent

theorem congr (hs : h.Solvent) (hz : h'.cells.size = h.cells.size)
    (hl : ∀ id, (h'.cell id).lease = (h.cell id).lease) (hb : h'.budgets = h.budgets) :
    h'.Solvent := by
  have hbud (b : BudgetId) : h'.budget b = h.budget b := by simp only [budget, hb]
  refine ⟨?_, ?_, ?_⟩
  · intro b
    rw [hbud, leased_congr hz hl]
    exact hs.lent b
  · intro b
    rw [hbud]
    exact hs.crest b
  · intro b limit
    rw [hbud]
    exact hs.within b limit

theorem live_le (hs : h.Solvent) {limit : Nat} (hl : (h.budget b).limit = some limit) :
    (h.budget b).live ≤ limit := (hs.crest b).trans (hs.within b limit hl)

/-- A lease that ends was counted, so the live count does not meet zero. -/
theorem live_ne_zero (hs : h.Solvent) (hl : (h.cell id).lease = some b) :
    (h.budget b).live ≠ 0 := by
  rw [hs.lent]
  exact leased_ne_zero hl

theorem budget_endLease (hs : h.Solvent) (id : NodeId) (b : BudgetId) :
    (h.endLease id).budget b = { h.budget b with
      live := (h.budget b).live - if (h.cell id).lease = some b then 1 else 0 } := by
  unfold endLease
  split
  · next hl => simp [hl]
  · next c hl =>
    have hc : c.index < h.budgets.size := opened_of_live (hs.live_ne_zero hl)
    have hg : ((h.modifyCell id fun c => { c with lease := none }).giveBack c).budget b =
        (h.modifyBudget c fun d => { d with live := (h.budget c).live - 1 }).budget b := rfl
    rw [hg, budget_modifyBudget, hl]
    simp only [hc, and_true, Option.some.injEq]
    split
    · next he => rw [he]
    · rfl

theorem endLease (hs : h.Solvent) (id : NodeId) : (h.endLease id).Solvent := by
  refine ⟨?_, ?_, ?_⟩
  · intro b
    have h1 := hs.lent b
    have h2 := leased_endLease h id b
    rw [hs.budget_endLease]
    simp only
    omega
  · intro b
    rw [hs.budget_endLease]
    exact (Nat.sub_le _ _).trans (hs.crest b)
  · intro b limit hl
    rw [hs.budget_endLease] at hl ⊢
    exact hs.within b limit hl

theorem build (hs : h.Solvent) (model : Model) (v : Value) : (h.build model v none).Solvent := by
  refine ⟨?_, hs.crest, hs.within⟩
  intro b
  rw [leased_build]
  exact hs.lent b

/-- A node built through a budget that has room. -/
theorem lend (hs : h.Solvent) (hb : b.index < h.budgets.size)
    (hr : reachedLimit? (h.budget b) = none) (model : Model) (v : Value) :
    ((h.lend b).build model v (some b)).Solvent := by
  have hbud (c : BudgetId) : ((h.lend b).build model v (some b)).budget c = (h.lend b).budget c :=
    rfl
  refine ⟨?_, ?_, ?_⟩
  · intro c
    have hl : (h.lend b).leased c = h.leased c := leased_congr rfl (fun _ => rfl) c
    rw [leased_build, hl, hbud, budget_lend hb]
    have := hs.lent c
    by_cases he : b = c
    · subst he
      simp only [if_true]
      omega
    · simp only [he, if_false, Option.some.injEq]
      omega
  · intro c
    rw [hbud, budget_lend hb]
    split
    · exact Nat.le_max_right _ _
    · exact hs.crest c
  · intro c limit
    rw [hbud, budget_lend hb]
    split
    · next he =>
      subst he
      exact fun hl => Nat.max_le.2 ⟨hs.within b limit hl, reachedLimit?_eq_none.1 hr limit hl⟩
    · exact hs.within c limit

theorem openBudget (hs : h.Solvent) (label : String) (limit : Option Nat) :
    (h.openBudget label limit).Solvent := by
  have hl (c : BudgetId) : (h.openBudget label limit).leased c = h.leased c :=
    leased_congr rfl (fun _ => rfl) c
  refine ⟨?_, ?_, ?_⟩
  · intro c
    rw [hl, budget_openBudget]
    split
    · next he =>
      have hd : h.budget h.nextBudget = default := budget_eq_default (Nat.lt_irrefl _)
      have := hs.lent c
      rw [he, hd] at this
      rw [he]
      exact this
    · exact hs.lent c
  · intro c
    rw [budget_openBudget]
    split
    · exact le_refl 0
    · exact hs.crest c
  · intro c l
    rw [budget_openBudget]
    split
    · exact fun _ => Nat.zero_le _
    · exact hs.within c l

end Solvent

/-! ## Leases through a release -/

/-- Leases and budgets have not changed. -/
structure SameBooks (h h' : Heap) : Prop where
  size : h'.cells.size = h.cells.size
  lease : ∀ id, (h'.cell id).lease = (h.cell id).lease
  budgets : h'.budgets = h.budgets

theorem SameBooks.refl (h : Heap) : SameBooks h h := ⟨rfl, fun _ => rfl, rfl⟩

theorem SameBooks.trans {h'' : Heap} (hs : SameBooks h h') (hs' : SameBooks h' h'') :
    SameBooks h h'' where
  size := hs'.size.trans hs.size
  lease id := (hs'.lease id).trans (hs.lease id)
  budgets := hs'.budgets.trans hs.budgets

theorem SameBooks.modifyCell (h : Heap) (id : NodeId) {f : Cell → Cell}
    (hf : ∀ c, (f c).lease = c.lease) : SameBooks h (h.modifyCell id f) where
  size := size_modifyCell f
  lease _ := cell_modifyCell_keeps (·.lease) hf
  budgets := rfl

theorem SameBooks.solvent (hb : SameBooks h h') (hs : h.Solvent) : h'.Solvent :=
  hs.congr hb.size hb.lease hb.budgets

theorem sameBooks_addStrong (h : Heap) (id : NodeId) : SameBooks h (h.addStrong id) :=
  .modifyCell h id fun _ => rfl

theorem sameBooks_dropStrong (h : Heap) (id : NodeId) : SameBooks h (h.dropStrong id) :=
  .modifyCell h id fun _ => rfl

theorem sameBooks_dropWeak (h : Heap) (id : NodeId) : SameBooks h (h.dropWeak id) :=
  .modifyCell h id fun _ => rfl

theorem sameBooks_setPayload (h : Heap) (id : NodeId) (v : Value) :
    SameBooks h (h.setPayload id v) := .modifyCell h id fun _ => rfl

theorem sameBooks_detach (h : Heap) (id tail : NodeId) : SameBooks h (h.detach id tail) :=
  (sameBooks_addStrong h tail).trans (sameBooks_setPayload _ id .nil)

theorem sameBooks_takeTail (h : Heap) (id : NodeId) : SameBooks h (h.takeTail id).2 := by
  rcases h.takeTail_cases id with ht | ⟨-, -, ht⟩ | ⟨tail, -, -, -, ht⟩
  · rw [ht]; exact .refl h
  · rw [ht]; exact ⟨rfl, fun _ => rfl, rfl⟩
  · rw [ht]; exact sameBooks_detach h id tail

/-- Only the task that closes a node touches the books. -/
theorem sameBooks_perform {t : Task} (ht : t.closings = []) : SameBooks h (h.perform t).2 := by
  have he := h.effect_perform t
  generalize (h.perform t).2 = h' at he ⊢
  cases he with
  | keep => exact .refl h
  | refuse => exact ⟨rfl, fun _ => rfl, rfl⟩
  | detach => exact sameBooks_detach h _ _
  | dropCopy => exact ⟨rfl, fun _ => rfl, rfl⟩
  | fell => exact ⟨rfl, fun _ => rfl, rfl⟩
  | dropStrong => exact sameBooks_dropStrong h _
  | destroy => exact (sameBooks_dropStrong h _).trans (sameBooks_setPayload _ _ .nil)
  | endLease => cases ht

theorem Solvent.perform (hs : h.Solvent) (t : Task) : (h.perform t).2.Solvent := by
  by_cases ht : t.closings = []
  · exact (sameBooks_perform ht).solvent hs
  · cases t with
    | close id => exact hs.endLease id
    | _ => exact absurd rfl ht

theorem Solvent.peak_perform (hs : h.Solvent) (t : Task) (b : BudgetId) :
    ((h.perform t).2.budget b).peak = (h.budget b).peak := by
  by_cases ht : t.closings = []
  · simp only [budget, (sameBooks_perform ht).budgets]
  · cases t with
    | close id =>
      rw [Heap.perform, hs.budget_endLease]
    | _ => exact absurd rfl ht

theorem strong_detach (h : Heap) (id tail id' : NodeId) :
    ((h.detach id tail).cell id').strong =
      if tail = id' ∧ tail.number < h.cells.size then (h.cell tail).strong + 1
      else (h.cell id').strong := by
  rw [detach, strong_setPayload, addStrong, cell_modifyCell]
  split <;> rfl

/-- A link leads to a node that is alive, so nothing comes back when it is taken. -/
theorem Sound.strong_detach_eq_zero {o : List Holding} {tail : NodeId} (hs : h.Sound o)
    (hp : (h.cell id).payload.node? = some tail) (id' : NodeId) :
    ((h.detach id tail).cell id').strong = 0 ↔ (h.cell id').strong = 0 := by
  rw [strong_detach]
  split
  · next he =>
    have := hs.strong_of_payload hp
    rw [← he.1]
    omega
  · rfl

theorem Sound.strong_takeTail_eq_zero {o : List Holding} (hs : h.Sound o) (id id' : NodeId) :
    ((h.takeTail id).2.cell id').strong = 0 ↔ (h.cell id').strong = 0 := by
  rcases h.takeTail_cases id with ht | ⟨-, -, ht⟩ | ⟨tail, -, hp, -, ht⟩
  · rw [ht]
  · rw [ht]; rfl
  · rw [ht, hs.strong_detach_eq_zero hp]

theorem Closing.congr {ids : List NodeId} (hc : h.Closing ids)
    (hs : ∀ id, (h'.cell id).strong = 0 ↔ (h.cell id).strong = 0)
    (hl : ∀ id, (h'.cell id).lease = (h.cell id).lease) : h'.Closing ids where
  once := hc.once
  destroyed id hm := (hs id).2 (hc.destroyed id hm)
  pending id hz hn := by
    rw [hs] at hz
    rw [hl] at hn
    exact hc.pending id hz hn

theorem strong_dropStrong_of_ne {id' : NodeId} (hn : id ≠ id') :
    ((h.dropStrong id).cell id').strong = (h.cell id').strong := by
  rw [dropStrong, cell_modifyCell_of_ne _ hn]

/-- One of several handles goes, and nothing is destroyed. -/
theorem Closing.dropStrong {ids : List NodeId} (hc : h.Closing ids)
    (ha : (h.cell id).strong ≠ 0) (hz : ((h.dropStrong id).cell id).strong ≠ 0) :
    (h.dropStrong id).Closing ids := by
  refine hc.congr ?_ (sameBooks_dropStrong h id).lease
  intro id'
  by_cases he : id = id'
  · subst he
    exact ⟨fun hh => absurd hh hz, fun hh => absurd hh ha⟩
  · rw [strong_dropStrong_of_ne he]

/-- The node whose last handle goes is on the list from then on. -/
theorem Closing.destroy {ids : List NodeId} (hc : h.Closing ids)
    (ha : (h.cell id).strong ≠ 0) (hz : ((h.dropStrong id).cell id).strong = 0) :
    ((h.dropStrong id).setPayload id .nil).Closing (id :: ids) := by
  have hl := ((sameBooks_dropStrong h id).trans (sameBooks_setPayload _ id .nil)).lease
  refine ⟨List.nodup_cons.2 ⟨fun hm => ha (hc.destroyed id hm), hc.once⟩, ?_, ?_⟩
  · intro id' hm
    rw [strong_setPayload]
    by_cases he : id = id'
    · rw [← he, hz]
    · rw [strong_dropStrong_of_ne he]
      exact hc.destroyed id' ((List.mem_cons.1 hm).resolve_left (Ne.symm he))
  · intro id' hz' hn
    rw [strong_setPayload] at hz'
    rw [hl] at hn
    by_cases he : id = id'
    · rw [he]
      exact List.mem_cons_self
    · rw [strong_dropStrong_of_ne he] at hz'
      exact List.mem_cons_of_mem _ (hc.pending id' hz' hn)

theorem Closing.endLease {ids : List NodeId} (hc : h.Closing (id :: ids)) :
    (h.endLease id).Closing ids := by
  have hstrong := (sameStore_endLease h id).strong
  refine ⟨(List.nodup_cons.1 hc.once).2, ?_, ?_⟩
  · intro id' hm
    exact (hstrong id').trans (hc.destroyed id' (List.mem_cons_of_mem _ hm))
  · intro id' hz hn
    rw [lease_endLease] at hn
    split at hn
    · cases hn rfl
    · next he =>
      have hm : id' ∈ id :: ids := hc.pending id' ((hstrong id').symm.trans hz) hn
      exact (List.mem_cons.1 hm).resolve_left fun hh => he hh.symm

theorem Closing.perform {t : Task} {ids : List NodeId} {o : List Holding}
    (hs : h.Sound (t.holdings ++ o)) (hc : h.Closing (t.closings ++ ids)) :
    (h.perform t).2.Closing (Task.closingsAll (h.perform t).1 ++ ids) := by
  match t with
  | .value (.list items) => exact hc
  | .value (.map t es) =>
    rw [perform_map]
    split <;> exact hc.congr (fun _ => .rfl) fun _ => rfl
  | .value (.node id) => exact hc
  | .value .nil => exact hc
  | .value (.bool _) => exact hc
  | .value (.number _) => exact hc
  | .value (.text _) => exact hc
  | .values [] => exact hc
  | .values (v :: vs) => exact hc
  | .unlink id =>
    have := hc.congr (hs.strong_takeTail_eq_zero id) (sameBooks_takeTail h id).lease
    rcases h.takeTail_cases id with ht | ⟨-, -, ht⟩ | ⟨tail, -, -, -, ht⟩ <;>
      simpa [Heap.perform, ht, Task.closings] using this
  | .walk id =>
    have := hc.congr (hs.strong_takeTail_eq_zero id) (sameBooks_takeTail h id).lease
    rcases h.takeTail_cases id with ht | ⟨-, -, ht⟩ | ⟨tail, -, -, -, ht⟩ <;>
      simpa [Heap.perform, ht, Task.closings] using this
  | .handle id =>
    have ha : (h.cell id).strong ≠ 0 :=
      hs.counter_ne_zero_of_owned (x := .strong id) List.mem_cons_self
    have hc : h.Closing ids := hc
    rw [perform_handle]
    split
    · next hz => exact hc.destroy ha hz
    · next hz => exact hc.dropStrong ha hz
  | .close id => exact hc.endLease
  | .finish => exact hc

/-- Only a node whose handle goes comes onto the list. -/
theorem closings_perform (h : Heap) (t : Task) :
    Task.closingsAll (h.perform t).1 = [] ∨
      ∃ id, t = .handle id ∧ Task.closingsAll (h.perform t).1 = [id] := by
  match t with
  | .value (.list items) => exact .inl rfl
  | .value (.map t es) =>
    rw [perform_map]
    split <;> exact .inl rfl
  | .value (.node id) => exact .inl rfl
  | .value .nil => exact .inl rfl
  | .value (.bool _) => exact .inl rfl
  | .value (.number _) => exact .inl rfl
  | .value (.text _) => exact .inl rfl
  | .values [] => exact .inl rfl
  | .values (v :: vs) => exact .inl rfl
  | .unlink id =>
    rcases h.takeTail_cases id with ht | ⟨-, -, ht⟩ | ⟨tail, -, -, -, ht⟩ <;>
      simp only [perform, ht] <;> exact .inl rfl
  | .walk id =>
    rcases h.takeTail_cases id with ht | ⟨-, -, ht⟩ | ⟨tail, -, -, -, ht⟩ <;>
      simp only [perform, ht] <;> exact .inl rfl
  | .handle id =>
    rw [perform_handle]
    split
    · exact .inr ⟨id, rfl, rfl⟩
    · exact .inl rfl
  | .close id => exact .inl rfl
  | .finish => exact .inl rfl

/-- A task keeps a lease, or ends the lease of a destroyed node that is off the list then. -/
theorem Closing.lease_perform {t : Task} {ids : List NodeId} {o : List Holding}
    (hs : h.Sound (t.holdings ++ o)) (hc : h.Closing (t.closings ++ ids)) (id : NodeId) :
    ((h.perform t).2.cell id).lease = (h.cell id).lease ∧
        (id ∈ Task.closingsAll (h.perform t).1 ++ ids →
          id ∈ t.closings ++ ids ∨ (h.cell id).strong ≠ 0) ∨
      ((h.perform t).2.cell id).lease = none ∧ (h.cell id).strong = 0 ∧
        id ∉ Task.closingsAll (h.perform t).1 ++ ids := by
  by_cases ht : t.closings = []
  · refine .inl ⟨(sameBooks_perform ht).lease id, ?_⟩
    intro hm
    rcases h.closings_perform t with hn | ⟨id', rfl, hn⟩
    · rw [hn] at hm
      exact .inl (List.mem_append_right _ hm)
    · rw [hn] at hm
      rcases List.mem_cons.1 hm with rfl | hm
      · exact .inr (hs.counter_ne_zero_of_owned (x := .strong id) List.mem_cons_self)
      · exact .inl hm
  · cases t with
    | close id' =>
      by_cases he : id' = id
      · subst he
        refine .inr ⟨?_, hc.destroyed id' List.mem_cons_self, (List.nodup_cons.1 hc.once).1⟩
        rw [Heap.perform, lease_endLease, if_pos rfl]
      · refine .inl ⟨?_, fun hm => .inl (List.mem_cons_of_mem _ hm)⟩
        rw [Heap.perform, lease_endLease, if_neg he]
    | _ => exact absurd rfl ht

end GraphStack.Heap
