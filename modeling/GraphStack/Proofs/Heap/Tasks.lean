import GraphStack.Proofs.Heap.Sound

/-!
# Tasks of a release

What a release still has to let go of is held by its tasks. A task that is done hands what it held
on to the tasks that it leaves, so a heap stays sound through a release for the tasks that remain
and everything else that is held.
-/

namespace GraphStack

/-- What a task is going to let go of. -/
def Task.holdings : Task → List Holding
  | .value v => [.value v]
  | .values vs => vs.map .value
  | .walk id => [.strong id]
  | .handle id => [.strong id]
  | _ => []

/-- The nodes whose lease a task ends. -/
def Task.closings : Task → List NodeId
  | .close id => [id]
  | _ => []

def Task.holdingsAll (ts : List Task) : List Holding := ts.flatMap Task.holdings

def Task.closingsAll (ts : List Task) : List NodeId := ts.flatMap Task.closings

namespace Task

@[simp] theorem holdingsAll_nil : holdingsAll [] = [] := rfl

@[simp] theorem holdingsAll_cons (t : Task) (ts : List Task) :
    holdingsAll (t :: ts) = t.holdings ++ holdingsAll ts := rfl

@[simp] theorem holdingsAll_append (ts us : List Task) :
    holdingsAll (ts ++ us) = holdingsAll ts ++ holdingsAll us := List.flatMap_append

@[simp] theorem closingsAll_nil : closingsAll [] = [] := rfl

@[simp] theorem closingsAll_cons (t : Task) (ts : List Task) :
    closingsAll (t :: ts) = t.closings ++ closingsAll ts := rfl

@[simp] theorem closingsAll_append (ts us : List Task) :
    closingsAll (ts ++ us) = closingsAll ts ++ closingsAll us := List.flatMap_append

/-- Every frame whose link is to be taken is let go of by a later task. -/
def Backed : List Task → Prop
  | [] => True
  | .unlink id :: rest => .handle id ∈ rest ∧ Backed rest
  | _ :: rest => Backed rest

theorem Backed.tail {t : Task} {ts : List Task} (hb : Backed (t :: ts)) : Backed ts := by
  cases t <;> first | exact hb.2 | exact hb

theorem Backed.held {ts : List Task} {id : NodeId} (hb : Backed (.unlink id :: ts)) :
    .strong id ∈ Holding.handlesAll (holdingsAll ts) := by
  have hh : .strong id ∈ holdingsAll ts := List.mem_flatMap.2 ⟨_, hb.1, List.mem_cons_self⟩
  exact List.mem_flatMap.2 ⟨_, hh, List.mem_cons_self⟩

end Task

namespace Heap

variable {h : Heap} {id tail : NodeId} {o : List Holding}

theorem run_nil (h : Heap) : h.run [] = h := by rw [run]

theorem run_cons (h : Heap) (t : Task) (rest : List Task) :
    h.run (t :: rest) = (h.perform t).2.run ((h.perform t).1 ++ rest) := by
  rw [run]

/-- What is so after the last task, and before a task whenever it is so after it, is so of every
release. -/
theorem run_induction {motive : Heap → List Task → Prop} (nil : ∀ h, motive h [])
    (cons : ∀ h t rest, motive (h.perform t).2 ((h.perform t).1 ++ rest) → motive h (t :: rest))
    (h : Heap) (tasks : List Task) : motive h tasks := by
  induction h, tasks using run.induct with
  | case1 h => exact nil h
  | case2 h t rest new h' hp _ ih => exact cons h t rest (by rw [hp]; exact ih)

/-- Tasks of two releases are worked off one release after the other. -/
theorem run_append (h : Heap) (ts us : List Task) : h.run (ts ++ us) = (h.run ts).run us := by
  induction h, ts using run_induction with
  | nil h => rw [run_nil, List.nil_append]
  | cons h t rest ih => rw [List.cons_append, run_cons, run_cons, ← List.append_assoc, ih]

theorem releaseAll_cons (h : Heap) (v : Value) (vs : List Value) :
    h.releaseAll (v :: vs) = (h.release v).releaseAll vs := by
  rw [releaseAll, run_cons, release, releaseAll, ← run_append]
  rfl

theorem releaseAll_nil (h : Heap) : h.releaseAll [] = h := by
  rw [releaseAll, run_cons]
  exact run_nil h

/-! ## What one task does -/

/-- Taking a link leaves everything as it was, counts a refusal, or moves the link of a frame that
has one handle and no reader. -/
theorem takeTail_cases (h : Heap) (id : NodeId) :
    h.takeTail id = (none, h) ∨
    ((h.cell id).strong = 1 ∧ (h.cell id).readers ≠ 0 ∧
      h.takeTail id = (none, { h with refusals := h.refusals + 1 })) ∨
    ∃ tail, (h.cell id).strong = 1 ∧ (h.cell id).payload.node? = some tail ∧
      (h.cell id).readers = 0 ∧ h.takeTail id = (some tail, h.detach id tail) := by
  unfold takeTail
  cases hu : h.uniqueTail? id with
  | none => exact .inl rfl
  | some tail =>
    unfold uniqueTail? at hu
    split at hu
    · next h1 =>
      by_cases hr : (h.cell id).readers = 0
      · exact .inr (.inr ⟨tail, h1, hu, hr, if_pos hr⟩)
      · exact .inr (.inl ⟨h1, hr, if_neg hr⟩)
    · cases hu

/-- Letting go of a handle lowers the count, and destroys the node when it was the last one. -/
theorem perform_handle (h : Heap) (id : NodeId) :
    h.perform (.handle id) =
      if ((h.dropStrong id).cell id).strong = 0 then
        ([.value (h.cell id).payload, .close id], (h.dropStrong id).setPayload id .nil)
      else ([], h.dropStrong id) := by
  simp only [perform, payload_dropStrong]

/-- Letting go of a map drops a copy, and takes the entries out when it was the last one. -/
theorem perform_map (h : Heap) (t : MapId) (es : List (String × Value)) :
    h.perform (.value (.map t es)) =
      if ((h.dropCopy t).tree t).copies = 0 then
        ([.values ((h.tree t).entries.map (·.2)), .finish], (h.dropCopy t).fell t)
      else ([], h.dropCopy t) := by
  simp only [perform, entries_dropCopy]

theorem strong_dropStrong (hb : id.number < h.cells.size) :
    ((h.dropStrong id).cell id).strong = (h.cell id).strong - 1 := by
  rw [dropStrong, cell_modifyCell_self _ hb]

theorem copies_dropCopy {t : MapId} (hb : t.index < h.trees.size) :
    ((h.dropCopy t).tree t).copies = (h.tree t).copies - 1 := by
  rw [dropCopy, tree_modifyTree_self _ hb]

theorem backed_perform {t : Task} {ts : List Task}
    (hb : Task.Backed (t :: ts)) : Task.Backed ((h.perform t).1 ++ ts) := by
  have ht := hb.tail
  match t with
  | .value (.list items) => exact ht
  | .value (.map t es) =>
    rw [Heap.perform_map]
    split <;> exact ht
  | .value (.node id) => exact ⟨List.mem_cons_self, ht⟩
  | .value .nil => exact ht
  | .value (.bool _) => exact ht
  | .value (.number _) => exact ht
  | .value (.text _) => exact ht
  | .values [] => exact ht
  | .values (v :: vs) => exact ht
  | .unlink id =>
    rcases h.takeTail_cases id with he | ⟨-, -, he⟩ | ⟨tail, -, -, -, he⟩ <;>
      simp only [Heap.perform, he] <;> exact ht
  | .walk id =>
    rcases h.takeTail_cases id with he | ⟨-, -, he⟩ | ⟨tail, -, -, -, he⟩ <;>
      simp only [Heap.perform, he] <;> exact ht
  | .handle id =>
    rw [Heap.perform_handle]
    split <;> exact ht
  | .close id => exact ht
  | .finish => exact ht

/-- What a task can do to the heap. -/
inductive Effect (h : Heap) : Task → Heap → Prop
  | keep {t : Task} (ht : t.closings = []) : Effect h t h
  | refuse {t : Task} {id : NodeId} (ht : t = .unlink id ∨ t = .walk id)
      (h1 : (h.cell id).strong = 1) (hr : (h.cell id).readers ≠ 0) :
      Effect h t { h with refusals := h.refusals + 1 }
  | detach {t : Task} {id tail : NodeId} (ht : t = .unlink id ∨ t = .walk id)
      (h1 : (h.cell id).strong = 1) (hp : (h.cell id).payload.node? = some tail) :
      Effect h t (h.detach id tail)
  | dropCopy {t : MapId} {es : List (String × Value)}
      (hc : ((h.dropCopy t).tree t).copies ≠ 0) : Effect h (.value (.map t es)) (h.dropCopy t)
  | fell {t : MapId} {es : List (String × Value)} (hc : ((h.dropCopy t).tree t).copies = 0) :
      Effect h (.value (.map t es)) ((h.dropCopy t).fell t)
  | dropStrong {id : NodeId} (hz : ((h.dropStrong id).cell id).strong ≠ 0) :
      Effect h (.handle id) (h.dropStrong id)
  | destroy {id : NodeId} (hz : ((h.dropStrong id).cell id).strong = 0) :
      Effect h (.handle id) ((h.dropStrong id).setPayload id .nil)
  | endLease {id : NodeId} : Effect h (.close id) (h.endLease id)

theorem effect_perform (h : Heap) (t : Task) : h.Effect t (h.perform t).2 := by
  match t with
  | .value (.list items) => exact .keep rfl
  | .value (.map t es) =>
    rw [perform_map]
    split
    · next hc => exact .fell hc
    · next hc => exact .dropCopy hc
  | .value (.node id) => exact .keep rfl
  | .value .nil => exact .keep rfl
  | .value (.bool _) => exact .keep rfl
  | .value (.number _) => exact .keep rfl
  | .value (.text _) => exact .keep rfl
  | .values [] => exact .keep rfl
  | .values (v :: vs) => exact .keep rfl
  | .unlink id =>
    rcases h.takeTail_cases id with ht | ⟨h1, hr, ht⟩ | ⟨tail, h1, hp, -, ht⟩ <;>
      simp only [perform, ht]
    · exact .keep rfl
    · exact .refuse (.inl rfl) h1 hr
    · exact .detach (.inl rfl) h1 hp
  | .walk id =>
    rcases h.takeTail_cases id with ht | ⟨h1, hr, ht⟩ | ⟨tail, h1, hp, -, ht⟩ <;>
      simp only [perform, ht]
    · exact .keep rfl
    · exact .refuse (.inr rfl) h1 hr
    · exact .detach (.inr rfl) h1 hp
  | .handle id =>
    rw [perform_handle]
    split
    · next hz => exact .destroy hz
    · next hz => exact .dropStrong hz
  | .close id => exact .endLease
  | .finish => exact .keep rfl

theorem size_perform (h : Heap) (t : Task) :
    (h.perform t).2.cells.size = h.cells.size ∧ (h.perform t).2.trees.size = h.trees.size ∧
      (h.perform t).2.budgets.size = h.budgets.size := by
  have he := h.effect_perform t
  generalize (h.perform t).2 = h' at he ⊢
  cases he with
  | keep => exact ⟨rfl, rfl, rfl⟩
  | refuse => exact ⟨rfl, rfl, rfl⟩
  | detach => exact ⟨(size_modifyCell _).trans (size_modifyCell _), rfl, rfl⟩
  | dropCopy => exact ⟨rfl, size_modifyTree _, rfl⟩
  | fell => exact ⟨rfl, (size_modifyTree _).trans (size_modifyTree _), rfl⟩
  | dropStrong => exact ⟨size_modifyCell _, rfl, rfl⟩
  | destroy => exact ⟨(size_modifyCell _).trans (size_modifyCell _), rfl, rfl⟩
  | endLease =>
    have hs := sameStore_endLease h
    exact ⟨(hs _).size, by rw [(hs _).trees], (books_endLease h _).1⟩

/-- What depends on neither strong count, payload nor lease stays as it is in every cell. -/
theorem cell_perform_keeps {α : Type} (p : Cell → α)
    (hp : ∀ c n v l, p { c with strong := n, payload := v, lease := l } = p c) (h : Heap)
    (t : Task) (id : NodeId) : p ((h.perform t).2.cell id) = p (h.cell id) := by
  have hadd (h : Heap) (id' : NodeId) : p ((h.addStrong id').cell id) = p (h.cell id) :=
    cell_modifyCell_keeps p fun c => hp c _ c.payload c.lease
  have hdrop (h : Heap) (id' : NodeId) : p ((h.dropStrong id').cell id) = p (h.cell id) :=
    cell_modifyCell_keeps p fun c => hp c _ c.payload c.lease
  have hset (h : Heap) (id' : NodeId) (v : Value) :
      p ((h.setPayload id' v).cell id) = p (h.cell id) :=
    cell_modifyCell_keeps p fun c => hp c c.strong _ c.lease
  have he := h.effect_perform t
  generalize (h.perform t).2 = h' at he ⊢
  cases he with
  | keep => rfl
  | refuse => rfl
  | detach => exact (hset _ _ .nil).trans (hadd h _)
  | dropCopy => rfl
  | fell => rfl
  | dropStrong => exact hdrop h _
  | destroy => exact (hset _ _ .nil).trans (hdrop h _)
  | endLease => exact cell_endLease_keeps p (fun c => hp c c.strong c.payload none) h _ id

namespace Sound

theorem refused (hs : h.Sound o) (n : Nat) : Sound { h with refusals := n } o :=
  hs.sameStore ⟨rfl, fun _ => rfl, fun _ => rfl, fun _ => rfl, rfl⟩

/-- Releasing a scalar loses nothing. -/
theorem dropScalar {v : Value} (hs : h.Sound (.value v :: o)) (hv : v.handles = []) :
    h.Sound o := by
  refine hs.regroup ?_ hs.agrees_of_cons
  rw [Holding.handlesAll_cons, Holding.handles, hv]
  exact .refl _

/-- A task passes what it held on to the tasks that it leaves. -/
theorem perform {t : Task} (hs : h.Sound (t.holdings ++ o)) :
    (h.perform t).2.Sound (Task.holdingsAll (h.perform t).1 ++ o) := by
  match t with
  | .value (.list items) =>
    simpa [Heap.perform, Task.holdings] using hs.items
  | .value (.map t es) =>
    have hc : (h.tree t).copies ≠ 0 :=
      hs.counter_ne_zero_of_owned (x := .tree t) List.mem_cons_self
    have hd := copies_dropCopy (planted_of_copies hc)
    rw [perform_map]
    split
    · simpa [Task.holdings] using fell hs (by omega)
    · exact dropCopy hs (by omega)
  | .value (.node id) => exact hs.unlink
  | .value .nil => exact hs.dropScalar rfl
  | .value (.bool _) => exact hs.dropScalar rfl
  | .value (.number _) => exact hs.dropScalar rfl
  | .value (.text _) => exact hs.dropScalar rfl
  | .values [] => exact hs
  | .values (v :: vs) => simpa [Heap.perform, Task.holdings] using hs
  | .unlink id =>
    rcases h.takeTail_cases id with ht | ⟨-, -, ht⟩ | ⟨tail, h1, hp, -, ht⟩
    · simpa [Heap.perform, ht, Task.holdings] using hs
    · simpa [Heap.perform, ht, Task.holdings] using hs.refused _
    · simpa [Heap.perform, ht, Task.holdings] using
        hs.detach (show (h.cell id).strong ≠ 0 by omega) hp
  | .walk id =>
    rcases h.takeTail_cases id with ht | ⟨-, -, ht⟩ | ⟨tail, h1, hp, -, ht⟩
    · simpa [Heap.perform, ht, Task.holdings] using hs
    · simpa [Heap.perform, ht, Task.holdings] using hs.refused _
    · have hd := hs.detach (show (h.cell id).strong ≠ 0 by omega) hp
      have := hd.perm (.cons _ (.swap _ _ _))
      simpa [Heap.perform, ht, Task.holdings] using this
  | .handle id =>
    have ha : (h.cell id).strong ≠ 0 :=
      hs.counter_ne_zero_of_owned (x := .strong id) List.mem_cons_self
    have hd := strong_dropStrong (built_of_strong ha)
    rw [perform_handle]
    split
    · simpa [Task.holdings] using hs.destroy
    · exact hs.dropStrong fun h1 => by omega
  | .close id => exact hs.sameStore (sameStore_endLease h id)
  | .finish => exact hs

/-- A release lets go of what its tasks hold, and of nothing else. -/
theorem run {tasks : List Task} (hs : h.Sound (Task.holdingsAll tasks ++ o)) :
    (h.run tasks).Sound o := by
  induction h, tasks using run_induction with
  | nil h =>
    rw [run_nil]
    exact hs
  | cons h t rest ih =>
    rw [run_cons]
    rw [Task.holdingsAll_cons, List.append_assoc] at hs
    apply ih
    rw [Task.holdingsAll_append, List.append_assoc]
    exact hs.perform

end Sound

end Heap
end GraphStack
