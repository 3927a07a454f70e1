import GraphStack.Proofs.Execution.Termination
import GraphStack.Proofs.Heap.Orders

/-!
# Releases against plain reference counting

Whatever is released at a moment of a run, the release with its walk along links and the plain
recursion end in the same cells, trees and budgets.
-/

namespace GraphStack.Execution

variable {past : List (Deed × Execution)} {e : Execution} {o kept : List Holding}

/-- A scope that reads a node keeps a handle to it. -/
theorem Sound.guarded (hs : e.Sound) {id : NodeId} (hr : (e.heap.cell id).readers ≠ 0) :
    .strong id ∈ Holding.handlesAll (e.reading.map .strong) := by
  rw [hs.readers] at hr
  have hm : id ∈ e.reading := List.count_pos_iff.1 (Nat.pos_of_ne_zero hr)
  exact List.mem_flatMap.2 ⟨_, List.mem_map_of_mem hm, List.mem_cons_self⟩

/-- A release of some of what is held, the rest and the handles of scopes being kept. -/
theorem Sound.unwinding {ids : List NodeId} (hs : e.Sound)
    (ho : e.owned.Perm (o ++ (kept ++ e.reading.map .strong))) (hc : e.heap.Closing ids) :
    Heap.Unwinding e.heap (kept ++ e.reading.map .strong) e.heap o ids where
  sound := hs.heap.perm ho
  solvent := hs.solvent
  closing := hc
  settling := .refl _ _
  guarded id hr hd := by
    apply hd.notMem
    rw [Holding.handlesAll_append]
    exact List.mem_append_right _ (hs.guarded hr)

theorem Sound.unwinding_task {t : Task} (hs : e.Sound) (ht : e.tasks = [t]) :
    ∃ kept, Heap.Unwinding e.heap kept e.heap t.holdings t.closings := by
  have hclose := hs.closing
  rw [ht, Task.closingsAll_cons, Task.closingsAll_nil, List.append_nil] at hclose
  refine ⟨e.held ++ e.reading.map .strong, hs.unwinding (.of_eq ?_) hclose⟩
  rw [owned, ht, Task.holdingsAll_cons, Task.holdingsAll_nil, List.append_nil, outside]

theorem Sound.unwinding_idle (hs : e.Sound) (ht : e.tasks = []) (hp : e.held.Perm (o ++ kept)) :
    Heap.Unwinding e.heap (kept ++ e.reading.map .strong) e.heap o [] := by
  have hclose := hs.closing
  rw [ht] at hclose
  refine hs.unwinding ?_ hclose
  rw [owned, ht, outside, Task.holdingsAll_nil, List.nil_append, ← List.append_assoc]
  exact hp.append_right _

theorem Sound.unwinding_held (hs : e.Sound) (ht : e.tasks = []) (hp : e.held.Perm (o ++ kept)) :
    ∃ kept, Heap.Unwinding e.heap kept e.heap o [] := ⟨_, hs.unwinding_idle ht hp⟩

theorem Working.unwinding {h₀ : Heap} {m m' : Execution} (hw : Working m m')
    (hu : Heap.Unwinding h₀ kept m.heap (Task.holdingsAll m.tasks) (Task.closingsAll m.tasks))
    (hb : ∀ id ts, m.tasks = .unlink id :: ts →
      .strong id ∈ Holding.handlesAll (Task.holdingsAll ts)) :
    Heap.Unwinding h₀ kept m'.heap (Task.holdingsAll m'.tasks) (Task.closingsAll m'.tasks) := by
  obtain ⟨t, ts, he, rfl⟩ := hw.exists_task
  rw [he] at hu hb
  rw [Task.holdingsAll_append, Task.closingsAll_append]
  refine hu.perform ?_
  rintro id rfl
  exact hb id ts rfl

theorem exists_perm_of_mem {x : Holding} (hx : x ∈ e.held) : ∃ kept, e.held.Perm (x :: kept) := by
  obtain ⟨before, later, hh⟩ := List.append_of_mem hx
  exact ⟨before ++ later, by rw [hh]; exact List.perm_middle⟩

/-- A value is about to be released, or could be. -/
def Releasable (e : Execution) (v : Value) : Prop :=
  e.tasks = [.value v] ∨ e.tasks = [] ∧ .value v ∈ e.held

/-- A handle is about to be let go of, or could be. -/
def Droppable (e : Execution) (id : NodeId) : Prop :=
  e.tasks = [.handle id] ∨ e.tasks = [] ∧ .strong id ∈ e.held

theorem Sound.unwinding_value {v : Value} (hs : e.Sound) (hv : e.Releasable v) :
    ∃ kept, Heap.Unwinding e.heap kept e.heap [.value v] [] := by
  rcases hv with ht | ⟨ht, hm⟩
  · exact hs.unwinding_task ht
  · obtain ⟨kept, hp⟩ := exists_perm_of_mem hm
    exact hs.unwinding_held ht hp

theorem Sound.unwinding_handle {id : NodeId} (hs : e.Sound) (hd : e.Droppable id) :
    ∃ kept, Heap.Unwinding e.heap kept e.heap [.strong id] [] := by
  rcases hd with ht | ⟨ht, hm⟩
  · exact hs.unwinding_task ht
  · obtain ⟨kept, hp⟩ := exists_perm_of_mem hm
    exact hs.unwinding_held ht hp

/-- Releases of a value, of a handle and of values one after the other end where the plain
recursion ends. -/
theorem Run.alike_discard (hr : Run past e) :
    (∀ v, e.Releasable v → Heap.Alike (e.heap.release v) (e.heap.discard v)) ∧
    (∀ id, e.Droppable id → Heap.Alike (e.heap.releaseHandle id) (e.heap.discardHandle id)) ∧
    (∀ vs kept, e.tasks = [] → e.held.Perm (vs.map .value ++ kept) →
      Heap.Alike (e.heap.releaseAll vs) (e.heap.discardAll vs)) := by
  have hs := hr.sound
  refine ⟨?_, ?_, ?_⟩
  · intro v hv
    obtain ⟨kept, hu⟩ := hs.unwinding_value hv
    have hrun : Heap.Unwinding e.heap kept (e.heap.run [.value v]) [] [] := hu.run trivial
    exact hrun.alike (Heap.Unwinding.discards.1 e.heap v [] [] hu)
  · intro id hd
    obtain ⟨kept, hu⟩ := hs.unwinding_handle hd
    have hrun : Heap.Unwinding e.heap kept (e.heap.run [.handle id]) [] [] := hu.run trivial
    exact hrun.alike (Heap.Unwinding.discards.2.1 e.heap id [] [] hu)
  · intro vs kept ht hp
    obtain ⟨kept, hu⟩ := hs.unwinding_held ht hp
    rw [← List.append_nil (vs.map _)] at hu
    have hrun : Heap.Unwinding e.heap kept (e.heap.run [.values vs]) [] [] := hu.run trivial
    exact hrun.alike (Heap.Unwinding.discards.2.2 e.heap vs [] [] hu)

/-- Both ways leave the node that links to itself behind, with its budget taken up. -/
theorem alike_discard_selfLink : ∃ past e, Run past e ∧ e.Releasable (.node ⟨1⟩) ∧
    e.tasks = [] ∧ e.held.Perm ([Value.node ⟨1⟩].map .value ++ []) ∧
    SelfLink.now.Droppable ⟨1⟩ ∧
    Heap.Alike (SelfLink.linked.release (.node ⟨1⟩)) (SelfLink.linked.discard (.node ⟨1⟩)) ∧
    Heap.Alike (SelfLink.linked.releaseAll [.node ⟨1⟩]) (SelfLink.linked.discardAll [.node ⟨1⟩]) ∧
    Heap.Alike (SelfLink.linked.releaseHandle ⟨1⟩) (SelfLink.linked.discardHandle ⟨1⟩) := by
  have hr := SelfLink.run.step (.deal .link)
  have hv : Releasable ⟨SelfLink.linked, [.value (.node ⟨1⟩)], [], []⟩ (.node ⟨1⟩) :=
    .inr ⟨rfl, List.mem_cons_self⟩
  have hd : SelfLink.now.Droppable ⟨1⟩ := .inr ⟨rfl, List.mem_cons_self⟩
  exact ⟨_, _, hr, hv, rfl, .refl _, hd, (Run.alike_discard hr).1 _ hv,
    (Run.alike_discard hr).2.2 _ [] rfl (.refl _), (Run.alike_discard SelfLink.run).2.1 _ hd⟩

end GraphStack.Execution
