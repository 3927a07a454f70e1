import GraphStack.Pool.Command
import Mathlib

/-!
# Sound pools

A pool is sound for the nodes that somebody has strong handles to and the nodes that open scopes
read: the strong counts are the numbers of those handles, and each node that is held has a payload
with as many readers as there are scopes on it. So a read always finds a payload, and a write is
refused only for a scope that reads the same node.
-/

namespace GraphStack

namespace Pool

variable {α : Type} [Payload α]

/-! ## Cells after an operation -/

section

variable {σ : Type → Type} {p : Pool σ α} {id id' : NodeId}

theorem cell?_modify (f : PoolCell σ α → PoolCell σ α) :
    (p.modify id f).cell? id' = if id = id' then (p.cell? id').map f else p.cell? id' := by
  have hid : id.number = id'.number ↔ id = id' := by
    cases id
    cases id'
    simp
  simp only [cell?, modify, Array.getElem?_modify, hid]

theorem strong_modify_of_ne (f : PoolCell σ α → PoolCell σ α) (hn : id ≠ id') :
    (p.modify id f).strong id' = p.strong id' := by
  rw [strong, cell?_modify, if_neg hn, strong]

theorem storage?_modify_of_ne (f : PoolCell σ α → PoolCell σ α) (hn : id ≠ id') :
    (p.modify id f).storage? id' = p.storage? id' := by
  rw [storage?, cell?_modify, if_neg hn, storage?]

/-- A change that leaves strong counts alone. -/
theorem strong_modify_keep {f : PoolCell σ α → PoolCell σ α} (hf : ∀ c, (f c).strong = c.strong) :
    (p.modify id f).strong id' = p.strong id' := by
  rw [strong, cell?_modify, strong]
  split
  · cases p.cell? id' with
    | none => rfl
    | some c => exact hf c
  · rfl

/-- A change that leaves storages alone. -/
theorem storage?_modify_keep {f : PoolCell σ α → PoolCell σ α}
    (hf : ∀ c, (f c).storage = c.storage) : (p.modify id f).storage? id' = p.storage? id' := by
  rw [storage?, cell?_modify, storage?]
  split
  · cases p.cell? id' with
    | none => rfl
    | some c => exact hf c
  · rfl

theorem storage?_addStrong : (p.addStrong id).storage? id' = p.storage? id' :=
  storage?_modify_keep fun _ => rfl

theorem storage?_dropStrong : (p.dropStrong id).storage? id' = p.storage? id' :=
  storage?_modify_keep fun _ => rfl

theorem strong_setStorage {s : σ α} : (p.setStorage id s).strong id' = p.strong id' :=
  strong_modify_keep fun _ => rfl

theorem storage?_setStorage {s t : σ α} (hs : p.storage? id = some s) :
    (p.setStorage id t).storage? id = some t := by
  obtain ⟨c, hc, -⟩ := Option.bind_eq_some_iff.1 hs
  rw [storage?, setStorage, cell?_modify, if_pos rfl, hc]
  rfl

theorem exists_cell (ha : p.strong id ≠ 0) :
    ∃ c, p.cell? id = some c ∧ p.strong id = c.strong ∧ p.storage? id = c.storage := by
  unfold strong storage? at *
  cases hc : p.cell? id with
  | none =>
    rw [hc] at ha
    exact absurd rfl ha
  | some c => exact ⟨c, rfl, rfl, rfl⟩

end

/-- What is held outside a pool and what its storages count. -/
structure Sound (p : Pool Guarded α) (owned reading : List NodeId) : Prop where
  counted : ∀ id, p.strong id = owned.count id
  stored : ∀ id ∈ owned, ∃ g, p.storage? id = some g ∧ g.readers = reading.count id
  within : ∀ id ∈ reading, id ∈ owned

variable {p q : Pool Guarded α} {owned owned' reading : List NodeId} {id : NodeId} {v : α}

namespace Sound

theorem empty (setting : Setting (Payload.Rest α)) :
    Sound (.empty setting : Pool Guarded α) [] [] :=
  ⟨fun _ => rfl, fun _ hm => (List.not_mem_nil hm).elim, fun _ hm => hm⟩

theorem perm (hs : p.Sound owned reading) (hp : owned.Perm owned') : p.Sound owned' reading where
  counted id := (hs.counted id).trans (hp.count_eq id)
  stored id hm := hs.stored id (hp.mem_iff.2 hm)
  within id hm := hp.mem_iff.1 (hs.within id hm)

/-- The setting, and what is not looked at here, may change. -/
theorem congr (hs : p.Sound owned reading) (hstrong : ∀ id, q.strong id = p.strong id)
    (hstorage : ∀ id, q.storage? id = p.storage? id) : q.Sound owned reading where
  counted id := (hstrong id).trans (hs.counted id)
  stored id hm := by
    rw [hstorage]
    exact hs.stored id hm
  within := hs.within

theorem resetting (hs : p.Sound owned reading) (setting : Setting (Payload.Rest α)) :
    ({ p with setting } : Pool Guarded α).Sound owned reading :=
  hs.congr (fun _ => rfl) fun _ => rfl

theorem drop (hs : p.Sound owned reading) (v : α) : (p.drop v).Sound owned reading :=
  hs.resetting _

theorem dropAll (hs : p.Sound owned reading) (vs : List α) :
    (p.dropAll vs).Sound owned reading := by
  unfold Pool.dropAll
  induction vs generalizing p with
  | nil => exact hs
  | cons v vs ih => exact ih (hs.drop v)

theorem orEmpty (hs : p.Sound owned reading) (given : Option α) :
    (p.orEmpty given).2.Sound owned reading := by
  cases given with
  | none => exact hs.resetting _
  | some v => exact hs

theorem addWeak (hs : p.Sound owned reading) (id : NodeId) : (p.addWeak id).Sound owned reading :=
  hs.congr (fun _ => strong_modify_keep fun _ => rfl) fun _ => storage?_modify_keep fun _ => rfl

theorem dropWeak (hs : p.Sound owned reading) (id : NodeId) :
    (p.dropWeak id).Sound owned reading :=
  hs.congr (fun _ => strong_modify_keep fun _ => rfl) fun _ => storage?_modify_keep fun _ => rfl

theorem mem_of_strong (hs : p.Sound owned reading) (ha : p.strong id ≠ 0) : id ∈ owned := by
  rw [hs.counted] at ha
  exact List.count_pos_iff.1 (Nat.pos_of_ne_zero ha)

theorem cell (hs : p.Sound owned reading) (hm : id ∈ owned) :
    ∃ c, p.cell? id = some c ∧ c.strong = owned.count id ∧ p.storage? id = c.storage := by
  have hne : p.strong id ≠ 0 := by
    rw [hs.counted]
    exact Nat.ne_of_gt (List.count_pos_iff.2 hm)
  obtain ⟨c, hc, hcount, hstore⟩ := exists_cell hne
  exact ⟨c, hc, hcount.symm.trans (hs.counted id), hstore⟩

/-! ## Handles -/

theorem addStrong (hs : p.Sound owned reading) (hm : id ∈ owned) :
    (p.addStrong id).Sound (id :: owned) reading where
  counted id' := by
    obtain ⟨c, hc, hcount, -⟩ := hs.cell hm
    by_cases he : id = id'
    · subst he
      rw [Pool.addStrong, strong, cell?_modify, if_pos rfl, hc, List.count_cons_self, ← hcount]
      rfl
    · rw [Pool.addStrong, strong_modify_of_ne _ he, List.count_cons_of_ne he]
      exact hs.counted id'
  stored id' hm' := by
    rw [storage?_addStrong]
    rcases List.mem_cons.1 hm' with rfl | hm'
    · exact hs.stored _ hm
    · exact hs.stored id' hm'
  within id' hm' := List.mem_cons_of_mem _ (hs.within id' hm')

theorem cells_destroy (p : Pool Guarded α) (id : NodeId) (c : PoolCell Guarded α) :
    (p.destroy id c).cells = (p.bury id).cells := by
  obtain ⟨strong, weak, storage, lease⟩ := c
  cases storage <;> cases lease <;> rfl

/-- The last handle goes, and the node with it. -/
theorem destroy (hs : p.Sound (id :: owned) reading) (hn : id ∉ owned)
    (hr : ∀ r ∈ reading, r ∈ owned) (c : PoolCell Guarded α) :
    (p.destroy id c).Sound owned reading := by
  have hbury : (p.bury id).Sound owned reading := by
    refine ⟨?_, ?_, hr⟩
    · intro id'
      by_cases he : id = id'
      · subst he
        obtain ⟨c, hc, -⟩ := hs.cell List.mem_cons_self
        rw [Pool.bury, strong, cell?_modify, if_pos rfl, hc, List.count_eq_zero.2 hn]
        rfl
      · rw [Pool.bury, strong_modify_of_ne _ he, hs.counted, List.count_cons_of_ne he]
    · intro id' hm
      have he : id ≠ id' := by
        rintro rfl
        exact hn hm
      rw [Pool.bury, storage?_modify_of_ne _ he]
      exact hs.stored id' (List.mem_cons_of_mem _ hm)
  have hcell (id' : NodeId) : (p.destroy id c).cell? id' = (p.bury id).cell? id' := by
    rw [cell?, cells_destroy, cell?]
  refine hbury.congr (fun id' => ?_) fun id' => ?_
  · rw [strong, hcell, strong]
  · rw [storage?, hcell, storage?]

/-- One of several handles goes. -/
theorem dropStrong (hs : p.Sound (id :: owned) reading) (hm : id ∈ owned) :
    (p.dropStrong id).Sound owned reading where
  counted id' := by
    obtain ⟨c, hc, hcount, -⟩ := hs.cell List.mem_cons_self
    rw [List.count_cons_self] at hcount
    by_cases he : id = id'
    · subst he
      rw [Pool.dropStrong, strong, cell?_modify, if_pos rfl, hc]
      exact Nat.sub_eq_of_eq_add hcount
    · rw [Pool.dropStrong, strong_modify_of_ne _ he, hs.counted, List.count_cons_of_ne he]
  stored id' hm' := by
    rw [storage?_dropStrong]
    exact hs.stored id' (List.mem_cons_of_mem _ hm')
  within r hr := (List.mem_cons.1 (hs.within r hr)).elim (fun he => he ▸ hm) fun hh => hh

theorem release (hs : p.Sound (id :: owned) reading) (hr : ∀ r ∈ reading, r ∈ owned) :
    (p.release id).Sound owned reading := by
  obtain ⟨c, hc, hcount, -⟩ := hs.cell List.mem_cons_self
  rw [List.count_cons_self] at hcount
  simp only [Pool.release, hc]
  split
  · next h1 => exact hs.destroy (List.count_eq_zero.1 (by omega)) hr c
  · exact hs.dropStrong (List.count_pos_iff.1 (by omega))

/-! ## New nodes -/

theorem build (hs : p.Sound owned reading) (v : α) (lease : Option BudgetId) :
    (p.build v lease).2.Sound ((p.build v lease).1 :: owned) reading := by
  have hcell (id : NodeId) : (p.build v lease).2.cell? id =
      if id.number = p.cells.size then some ⟨1, 0, some (Storage.keep v), lease⟩
      else p.cell? id := Array.getElem?_push
  have hfresh : (⟨p.cells.size⟩ : NodeId) ∉ owned := by
    intro hm
    obtain ⟨c, hc, -⟩ := hs.cell hm
    rw [cell?, Array.getElem?_eq_none (le_refl _)] at hc
    cases hc
  have hne (id : NodeId) (hn : (⟨p.cells.size⟩ : NodeId) ≠ id) : id.number ≠ p.cells.size :=
    fun he => hn (congrArg NodeId.mk he.symm)
  refine ⟨?_, ?_, fun id hm => List.mem_cons_of_mem _ (hs.within id hm)⟩
  · intro id
    by_cases he : (⟨p.cells.size⟩ : NodeId) = id
    · subst he
      rw [strong, hcell, if_pos rfl, Pool.build, List.count_cons_self,
        List.count_eq_zero.2 hfresh]
      rfl
    · rw [strong, hcell, if_neg (hne id he), Pool.build, List.count_cons_of_ne he]
      exact hs.counted id
  · intro id hm
    by_cases he : (⟨p.cells.size⟩ : NodeId) = id
    · subst he
      refine ⟨Storage.keep v, ?_, ?_⟩
      · rw [storage?, hcell, if_pos rfl]
        rfl
      · exact (List.count_eq_zero.2 fun hr => hfresh (hs.within _ hr)).symm
    · rw [storage?, hcell, if_neg (hne id he)]
      exact hs.stored id ((List.mem_cons.1 hm).resolve_left fun hh => he hh.symm)

/-- A construction hands out a node, or leaves the handles as they were. -/
theorem construct (hs : p.Sound owned reading) (v : α) (through : Option BudgetId) :
    (p.construct v through).2.Sound
      ((p.construct v through).1.toOption.toList ++ owned) reading := by
  cases through with
  | none => exact hs.build v none
  | some b =>
    simp only [Pool.construct]
    split
    · exact hs.drop v
    · exact (hs.resetting _).build v (some b)

theorem constructFrom (hs : p.Sound owned reading) (args : Arguments α)
    (through : Option BudgetId) :
    (p.constructFrom args through).2.Sound
      ((p.constructFrom args through).1.toOption.toList ++ owned) reading := by
  unfold Pool.constructFrom
  split
  · exact hs.dropAll _
  · next given _ => exact (hs.orEmpty given).construct _ through

/-! ## Scopes and payloads -/

/-- A storage changes, and the scopes with the number of its readers. -/
theorem setStorage {reading' : List NodeId} {g : Guarded α} (hs : p.Sound owned reading)
    (hm : id ∈ owned) (hg : g.readers = reading'.count id)
    (hr : ∀ id', id ≠ id' → reading'.count id' = reading.count id')
    (hw : ∀ r ∈ reading', r ∈ owned) : (p.setStorage id g).Sound owned reading' where
  counted id' := by
    rw [strong_setStorage]
    exact hs.counted id'
  stored id' hm' := by
    by_cases he : id = id'
    · subst he
      obtain ⟨g', hg', -⟩ := hs.stored id hm
      exact ⟨g, storage?_setStorage hg', hg⟩
    · rw [Pool.setStorage, storage?_modify_of_ne _ he, hr id' he]
      exact hs.stored id' hm'
  within := hw

/-- A scope can be opened on a node that is held, and sees its payload. -/
theorem enter? (hs : p.Sound owned reading) (hm : id ∈ owned) :
    ∃ q v, p.enter? id = some q ∧ q.payload? id = some v ∧ q.Sound owned (id :: reading) := by
  obtain ⟨g, hg, hcount⟩ := hs.stored id hm
  have hstored := storage?_setStorage (t := { g with readers := g.readers + 1 }) hg
  refine ⟨p.setStorage id { g with readers := g.readers + 1 }, g.payload, ?_, ?_, ?_⟩
  · rw [Pool.enter?, hg]
    rfl
  · rw [payload?, hstored]
    rfl
  · refine hs.setStorage hm ?_ (fun id' hn => List.count_cons_of_ne hn) ?_
    · rw [List.count_cons_self, ← hcount]
    · exact fun r hr => (List.mem_cons.1 hr).elim (fun he => he ▸ hm) (hs.within r)

theorem leave (hs : p.Sound owned (id :: reading)) : (p.leave id).Sound owned reading := by
  have hm : id ∈ owned := hs.within id List.mem_cons_self
  obtain ⟨g, hg, hcount⟩ := hs.stored id hm
  rw [List.count_cons_self] at hcount
  rw [Pool.leave, hg]
  refine hs.setStorage hm ?_ (fun id' hn => (List.count_cons_of_ne hn).symm)
    fun r hr => hs.within r (List.mem_cons_of_mem _ hr)
  exact Nat.sub_eq_of_eq_add hcount

theorem read? (hs : p.Sound owned reading) (hm : id ∈ owned) :
    ∃ v q, p.read? id = some (v, q) ∧ q.Sound owned reading := by
  obtain ⟨q, v, hq, hv, hs'⟩ := hs.enter? hm
  refine ⟨(q.copy v).1, (q.copy v).2.leave id, ?_, (hs'.resetting _).leave⟩
  simp only [Pool.read?, hq, hv]

/-- A write to a node that is held and that no scope reads goes through. -/
theorem replace? (hs : p.Sound owned reading) (hm : id ∈ owned) (hr : id ∉ reading) (v : α) :
    ∃ old q, p.replace? id v = some (old, q) ∧ q.Sound owned reading := by
  obtain ⟨g, hg, hcount⟩ := hs.stored id hm
  have h0 : g.readers = 0 := by rw [hcount, List.count_eq_zero.2 hr]
  refine ⟨g.payload, p.setStorage id { g with payload := v }, ?_, ?_⟩
  · have hw : Storage.replace? g v = some (g.payload, { g with payload := v }) := if_pos h0
    simp only [Pool.replace?, hg, Option.bind_some, hw]
  · exact hs.setStorage hm hcount (fun _ _ => rfl) hs.within

theorem take? (hs : p.Sound owned reading) (hm : id ∈ owned) (hr : id ∉ reading) (v : α) :
    ∃ old q, p.take? id v = some (old, q) ∧ q.Sound owned reading := by
  obtain ⟨⟨w, readers⟩, hg, hcount⟩ := hs.stored id hm
  rw [List.count_eq_zero.2 hr] at hcount
  subst hcount
  refine ⟨w, p.setStorage id (.keep v), ?_, ?_⟩
  · have ht : Storage.take? (⟨w, 0⟩ : Guarded α) v = some (w, .keep v) := rfl
    simp only [Pool.take?, hg, Option.bind_some, ht]
  · exact hs.setStorage hm (List.count_eq_zero.2 hr).symm (fun _ _ => rfl) hs.within

end Sound
end Pool
end GraphStack
