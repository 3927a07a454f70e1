import GraphStack.Proofs.Execution.Journal
import GraphStack.Proofs.Execution.Teardown

/-!
# Copies that are let go of

A copy adds handles and nothing else, and letting go of it takes the same handles away again. While
that goes on, whatever the copy was made of is still held by its owner: no frame is unlinked, no
entry leaves a tree, no node is destroyed and no lease ends. In the end the heap is what it was.
-/

namespace GraphStack

namespace Heap

/-- The heap with so many handles more, and otherwise the same. -/
structure Surplus (h : Heap) (extra : List Handle) (h' : Heap) : Prop where
  counter : ∀ x, h'.counter x = h.counter x + extra.count x
  size : h'.cells.size = h.cells.size
  cells : ∀ id, uncounted (h'.cell id) = uncounted (h.cell id)
  planted : h'.trees.size = h.trees.size
  entries : ∀ t, (h'.tree t).entries = (h.tree t).entries
  budgets : h'.budgets = h.budgets
  journal : h'.journal = h.journal
  refusals : h'.refusals = h.refusals

variable {h h' : Heap} {kept o : List Holding} {ids : List NodeId} {t : Task} {id : NodeId}

theorem eq_of_uncounted {c d : Cell} (hu : uncounted c = uncounted d) (hs : c.strong = d.strong)
    (hw : c.weak = d.weak) : c = d := by
  cases c
  cases d
  simp_all [uncounted]

theorem Surplus.eq (hs : Surplus h [] h') : h' = h := by
  have hc (x : Handle) : h'.counter x = h.counter x := hs.counter x
  have hcells : h'.cells = h.cells := cells_ext hs.size fun id =>
    eq_of_uncounted (hs.cells id) (hc (.strong id)) (hc (.weak id))
  have htrees : h'.trees = h.trees := trees_ext hs.planted fun t =>
    eq_of_entries (hc (.tree t)) (hs.entries t)
  have hbudgets := hs.budgets
  have hjournal := hs.journal
  have hrefusals := hs.refusals
  cases h
  cases h'
  simp_all

namespace Unwinding

/-! ## Nothing is doomed where nothing is to be let go of -/

variable (hidle : Unwinding h kept h [] [])

include hidle

theorem payload_unchanged (hu : Unwinding h kept h' o ids) (id : NodeId) :
    (h'.cell id).payload = (h.cell id).payload := by
  rcases hu.settling.payload id with he | ⟨hn, hd⟩
  · exact he
  · rw [hn, hidle.sound.cleared id (hidle.counter_eq_zero hd)]

theorem lease_unchanged (hu : Unwinding h kept h' o ids) (id : NodeId) :
    (h'.cell id).lease = (h.cell id).lease := by
  rcases hu.settling.lease id with he | ⟨hn, hd⟩
  · exact he
  · rw [hn, hidle.lease_eq_none hd]

theorem entries_unchanged (hu : Unwinding h kept h' o ids) (t : MapId) :
    (h'.tree t).entries = (h.tree t).entries := by
  rcases hu.settling.entries t with he | ⟨hn, hd⟩
  · exact he
  · rw [hn, hidle.sound.felled t (hidle.counter_eq_zero hd)]

theorem budgets_unchanged (hu : Unwinding h kept h' o ids) : h'.budgets = h.budgets := by
  apply budgets_ext hu.settling.budgets
  intro b
  refine eq_of_terms (hu.settling.terms b) ?_
  rw [hu.solvent.lent, hidle.solvent.lent]
  exact leased_congr hu.settling.cells (hidle.lease_unchanged hu) b

/-- What is still to be let go of is all that the counters are too high by. -/
theorem counter_surplus (hu : Unwinding h kept h' o ids) (x : Handle) :
    h'.counter x = h.counter x + (Holding.handlesAll o).count x := by
  have hin := inside_congr hu.settling.cells hu.settling.trees (hidle.payload_unchanged hu)
    (hidle.entries_unchanged hu) x
  have hafter := hu.sound.counted x
  have hbefore := hidle.sound.counted x
  rw [Holding.handlesAll_append, List.count_append] at hafter
  rw [List.nil_append] at hbefore
  omega

theorem surplus (hu : Unwinding h kept h' o ids) (hj : h'.journal = h.journal) :
    Surplus h (Holding.handlesAll o) h' where
  counter := hidle.counter_surplus hu
  size := hu.settling.cells
  cells id := by
    have hf := hu.settling.frame id
    have hp := hidle.payload_unchanged hu id
    have hl := hidle.lease_unchanged hu id
    generalize h'.cell id = c, h.cell id = d at hf hp hl ⊢
    cases c
    cases d
    simp_all [frame, uncounted]
  planted := hu.settling.trees
  entries := hidle.entries_unchanged hu
  budgets := hidle.budgets_unchanged hu
  journal := hj
  refusals := hu.settling.refusals

/-- A node whose lease is about to end had none: it was gone before the release began. -/
theorem journal_unchanged (hu : Unwinding h kept h' o (t.closings ++ ids)) :
    (h'.perform t).2.journal = h'.journal := by
  by_cases ht : t.closings = []
  · exact journal_perform ht
  · cases t with
    | close id =>
      have hz : (h'.cell id).strong = 0 := hu.closing.destroyed id List.mem_cons_self
      have hn : (h'.cell id).lease = none := by
        rw [hidle.lease_unchanged hu]
        exact hidle.lease_eq_none (hu.doomed_of_strong hz)
      rw [Heap.perform, Heap.endLease, hn]
    | _ => exact absurd rfl ht

end Unwinding
end Heap

namespace Execution

open Heap

/-- What a caller can make a copy of: a value in reach, such as the payload of a node, a handle, or
a weak handle; a weak handle can also come from a strong one, and a strong handle from a weak one
of a node that is alive. -/
inductive Copying (e : Execution) : Heap → Holding → Prop
  | payload {id : NodeId} (hv : e.heap.Visible e.outside (.node id)) :
      Copying e (e.heap.retain (e.heap.payload id)) (.value (e.heap.payload id))
  | value {v : Value} (hv : e.heap.Visible e.outside v) : Copying e (e.heap.retain v) (.value v)
  | handle {id : NodeId} (hv : e.heap.Visible e.outside (.node id)) :
      Copying e (e.heap.addStrong id) (.strong id)
  | weak {id : NodeId} (hx : .weak id ∈ e.held) : Copying e (e.heap.addWeak id) (.weak id)
  | upgrade {h : Heap} {id : NodeId} (hx : .weak id ∈ e.held)
      (hu : e.heap.upgrade? id = some h) : Copying e h (.strong id)
  | downgrade {id : NodeId} (hv : e.heap.Visible e.outside (.node id)) :
      Copying e (e.heap.addWeak id) (.weak id)

structure Returning (h : Heap) (kept : List Holding) (m : Execution) : Prop where
  unwinding : Unwinding h kept m.heap (Task.holdingsAll m.tasks) (Task.closingsAll m.tasks)
  backed : Task.Backed m.tasks
  journal : m.heap.journal = h.journal
  dead : ∀ id, (h.cell id).strong = 0 → (m.heap.cell id).strong = 0

variable {past : List (Deed × Execution)} {e m m' : Execution} {h : Heap} {x : Holding} {n : Nat}
  {kept : List Holding} {t : Task}

theorem Copying.dealing (hc : Copying e h x) : Dealing e.reading e.heap e.held h (x :: e.held) := by
  cases hc with
  | payload hv => exact .copy hv.payload
  | value hv => exact .copy hv
  | handle hv => exact .grasp hv
  | weak hx => exact .clone hx
  | upgrade hx hu => exact .upgrade hx hu
  | downgrade hv => exact .downgrade hv

theorem Copying.settling {handles : List Handle} (hc : Copying e h x) :
    Settling e.heap handles h := by
  have hrefl := Settling.refl e.heap handles
  cases hc with
  | payload => exact hrefl.retain _
  | value => exact hrefl.retain _
  | handle => exact hrefl.addStrong _
  | weak => exact hrefl.modifyCell fun _ => rfl
  | upgrade hx hu =>
    obtain ⟨-, rfl⟩ := upgrade?_eq_some hu
    exact hrefl.addStrong _
  | downgrade => exact hrefl.modifyCell fun _ => rfl

/-- Between two releases nothing is to be let go of. -/
theorem Sound.idle (hs : e.Sound) (ht : e.tasks = []) :
    Unwinding e.heap e.outside e.heap [] [] := by
  have hp : e.held.Perm ([] ++ e.held) := .refl _
  exact hs.unwinding_idle ht hp

/-- A copy can be let go of while everything that was held before is kept. -/
theorem Copying.unwinding (hc : Copying e h x) (hs : e.Sound) (ht : e.tasks = []) :
    Unwinding e.heap e.outside h [x] [] := by
  have hidle := hs.idle ht
  have hr := hc.dealing.recounts hidle.sound
  exact ⟨hc.dealing.sound hidle.sound, hidle.solvent.congr hr.size hr.lease hr.budgets,
    hidle.closing.congr hr.dead hr.lease, hc.settling, hidle.guarded⟩

theorem Copying.returning (hc : Copying e h x) (hs : e.Sound) (ht : e.tasks = [])
    (hx : t.holdings = [x]) : Returning e.heap e.outside ⟨h, e.held, e.reading, [t]⟩ := by
  have hnone : t.closings = [] ∧ Task.Backed [t] := by
    cases t with
    | unlink => cases hx
    | close => cases hx
    | _ => exact ⟨rfl, trivial⟩
  have hdead := (hc.dealing.recounts (hs.idle ht).sound).dead
  refine ⟨?_, hnone.2, hc.dealing.records.journal, fun id => (hdead id).2⟩
  rw [Task.holdingsAll_cons, Task.closingsAll_cons, hx, hnone.1]
  exact hc.unwinding hs ht

namespace Returning

variable (hidle : Unwinding h kept h [] [])

include hidle

theorem surplus (hr : Returning h kept m) :
    Surplus h (Holding.handlesAll (Task.holdingsAll m.tasks)) m.heap :=
  hidle.surplus hr.unwinding hr.journal

theorem isAlive_eq (hr : Returning h kept m) (id : NodeId) :
    (m.heap.cell id).isAlive = (h.cell id).isAlive := by
  have hc := (hr.surplus hidle).counter (.strong id)
  simp only [counter] at hc
  rw [Bool.eq_iff_iff, isAlive_iff, isAlive_iff]
  refine ⟨fun ha hz => ha (hr.dead id hz), fun ha => ?_⟩
  omega

theorem working (hr : Returning h kept m) (hw : Working m m') : Returning h kept m' := by
  have hu' := hw.unwinding hr.unwinding fun id ts he => (he ▸ hr.backed).held
  obtain ⟨t, ts, he, rfl⟩ := hw.exists_task
  obtain ⟨hu, hb, hj, hdead⟩ := hr
  rw [he] at hu hb
  refine ⟨hu', backed_perform hb, (hidle.journal_unchanged hu).trans hj, ?_⟩
  intro id hz
  have hs := hu.sound
  rw [Task.holdingsAll_cons, List.append_assoc] at hs
  exact hs.strong_perform_eq_zero (hdead id hz)

theorem works (hr : Returning h kept m) (hw : Works n m m') : Returning h kept m' := by
  induction hw with
  | none => exact hr
  | next hw _ ih => exact ih (hr.working hidle hw)

theorem run_eq (hr : Returning h kept m) : m.heap.run m.tasks = h := by
  obtain ⟨n, hw⟩ := Works.exists_settled m
  exact ((hr.works hidle hw).surplus hidle).eq

end Returning

theorem Copying.releaseHolding_eq (hc : Copying e h x) (hs : e.Sound) (ht : e.tasks = []) :
    h.releaseHolding x = e.heap := by
  have hidle := hs.idle ht
  cases x with
  | strong id => exact (hc.returning hs ht (t := .handle id) rfl).run_eq hidle
  | weak id =>
    have hdrop : Unwinding e.heap e.outside (h.dropWeak id) [] [] := (hc.unwinding hs ht).dropWeak
    exact (hidle.surplus hdrop hc.dealing.records.journal).eq
  | value v => exact (hc.returning hs ht (t := .value v) rfl).run_eq hidle

/-- A copy of a value or of a handle, and what an upgrade or a downgrade hands out, adds the handles
that it has and nothing else; the maps in it are shared. Letting go of it makes the heap exactly
what it was, and at no moment on the way has anything changed but the counts of the handles that
are still to go: no node is destroyed, and nothing is taken out of one. -/
theorem Run.copies_return (hr : Run past e) (ht : e.tasks = []) (hc : Copying e h x) :
    Surplus e.heap x.handles h ∧
    h.releaseHolding x = e.heap ∧
    ∀ t n m, t.holdings = [x] → Works n ⟨h, e.held, e.reading, [t]⟩ m →
      Surplus e.heap (Holding.handlesAll (Task.holdingsAll m.tasks)) m.heap ∧
        ∀ id, (m.heap.cell id).isAlive = (e.heap.cell id).isAlive := by
  have hs := hr.sound
  have hidle := hs.idle ht
  refine ⟨?_, hc.releaseHolding_eq hs ht, ?_⟩
  · have hone := hidle.surplus (hc.unwinding hs ht) hc.dealing.records.journal
    rw [Holding.handlesAll_cons, Holding.handlesAll_nil, List.append_nil] at hone
    exact hone
  · intro t n m hx hw
    have hback := (hc.returning hs ht hx).works hidle hw
    exact ⟨hback.surplus hidle, hback.isAlive_eq hidle⟩

/-- The node that links to itself has two handles, and one of them is its own payload. While a copy
of the payload goes, the frame has three handles and keeps its link. -/
theorem copies_return_selfLink : ∃ past e h m, Run past e ∧ e.tasks = [] ∧
    Copying e h (.value (.node ⟨1⟩)) ∧ h.releaseHolding (.value (.node ⟨1⟩)) = e.heap ∧
    Task.holdings (.value (.node ⟨1⟩)) = [.value (.node ⟨1⟩)] ∧
    Works 2 ⟨h, e.held, e.reading, [.value (.node ⟨1⟩)]⟩ m ∧ m.tasks = [.handle ⟨1⟩, .finish] ∧
    (e.heap.cell ⟨1⟩).strong = 2 ∧ (m.heap.cell ⟨1⟩).strong = 3 ∧
    m.heap.payload ⟨1⟩ = .node ⟨1⟩ := by
  have hv : SelfLink.linked.Visible SelfLink.now.outside (.node ⟨1⟩) :=
    .handle List.mem_cons_self
  have hc : Copying SelfLink.now (SelfLink.linked.addStrong ⟨1⟩) (.value (.node ⟨1⟩)) :=
    Copying.payload (e := SelfLink.now) hv
  have hw : Works 2 ⟨SelfLink.linked.addStrong ⟨1⟩, [.strong ⟨1⟩], [], [.value (.node ⟨1⟩)]⟩
      ⟨SelfLink.linked.addStrong ⟨1⟩, [.strong ⟨1⟩], [], [.handle ⟨1⟩, .finish]⟩ :=
    .next ⟨nofun, _, .work⟩ (.next ⟨nofun, _, .work⟩ .none)
  obtain ⟨-, hend, hway⟩ := Run.copies_return SelfLink.run rfl hc
  have hs := (hway _ _ _ rfl hw).1
  exact ⟨_, _, _, _, SelfLink.run, rfl, hc, hend, rfl, hw, rfl, rfl, hs.counter (.strong ⟨1⟩),
    congrArg Cell.payload (hs.cells ⟨1⟩)⟩

end Execution
end GraphStack
