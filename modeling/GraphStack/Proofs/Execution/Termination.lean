import GraphStack.Proofs.Execution.Leads

/-!
# Every release ends

Live frames and links are the extent of a heap. A release adds to neither, and whenever it destroys
a frame or takes a link out of one the extent falls; so a walk cannot go round a cycle, which it
would have to unlink again. Between two such steps the tasks themselves get lighter, and
`Execution.remaining` bounds all the steps that a release still has before it.
-/

open scoped BigOperators

namespace GraphStack

/-! ## The extent of a heap -/

/-- A live frame counts, and so does a link in one. -/
def Cell.extent (c : Cell) : Nat :=
  (if c.isAlive then 1 else 0) + if c.payload.node?.isSome then 1 else 0

namespace Cell

variable {c c' : Cell}

/-- A frame that does not come to life and gets no link. -/
theorem extent_le (ha : c'.isAlive → c.isAlive)
    (hp : c'.payload.node?.isSome → c.payload.node?.isSome) : c'.extent ≤ c.extent := by
  unfold extent
  apply Nat.add_le_add
  · split_ifs <;> simp_all
  · split_ifs <;> simp_all

/-- Such a frame that moreover is destroyed or loses its link. -/
theorem extent_lt (ha : c'.isAlive → c.isAlive)
    (hp : c'.payload.node?.isSome → c.payload.node?.isSome)
    (hl : (c.isAlive ∧ ¬ c'.isAlive) ∨
      (c.payload.node?.isSome ∧ ¬ c'.payload.node?.isSome)) : c'.extent < c.extent := by
  unfold extent
  rcases hl with ⟨h, h'⟩ | ⟨h, h'⟩
  · rw [if_pos h, if_neg h']
    split_ifs <;> simp_all
  · rw [if_pos h, if_neg h']
    split_ifs <;> simp_all

end Cell

namespace Heap

/-- The number of live frames and of links. -/
def extent (h : Heap) : Nat := ∑ n ∈ Finset.range h.cells.size, (h.cell ⟨n⟩).extent

/-- From one heap to the next a frame is destroyed, or its link is taken out. -/
def Loses (h h' : Heap) (id : NodeId) : Prop :=
  ((h.cell id).isAlive ∧ ¬ (h'.cell id).isAlive) ∨
    ((h.payload id).node?.isSome ∧ ¬ (h'.payload id).node?.isSome)

variable {h h' : Heap} {id : NodeId} {t : Task} {o : List Holding}

theorem Loses.built (hl : h.Loses h' id) : id.number < h.cells.size := by
  by_contra hb
  have hv := cell_eq_vacant hb
  rcases hl with ⟨ha, -⟩ | ⟨hp, -⟩
  · rw [hv] at ha
    cases ha
  · rw [payload, hv] at hp
    cases hp

theorem link_of_perform (h : Heap) (t : Task) (id : NodeId)
    (hp : ((h.perform t).2.payload id).node?.isSome) : (h.payload id).node?.isSome := by
  rcases h.payload_perform_eq t id with he | hn
  · rwa [← he]
  · rw [hn] at hp
    cases hp

namespace Sound

theorem isAlive_of_perform (hs : h.Sound (t.holdings ++ o)) (id : NodeId)
    (ha : ((h.perform t).2.cell id).isAlive) : (h.cell id).isAlive :=
  isAlive_iff.2 fun hz => isAlive_iff.1 ha (hs.strong_perform_eq_zero hz)

/-- No frame comes to life and none gets a link while a task is done. -/
theorem extent_cell_perform_le (hs : h.Sound (t.holdings ++ o)) (id : NodeId) :
    ((h.perform t).2.cell id).extent ≤ (h.cell id).extent :=
  Cell.extent_le (hs.isAlive_of_perform id) (link_of_perform h t id)

theorem extent_cell_perform_lt (hs : h.Sound (t.holdings ++ o))
    (hl : h.Loses (h.perform t).2 id) :
    ((h.perform t).2.cell id).extent < (h.cell id).extent :=
  Cell.extent_lt (hs.isAlive_of_perform id) (link_of_perform h t id) hl

theorem extent_perform_le (hs : h.Sound (t.holdings ++ o)) :
    (h.perform t).2.extent ≤ h.extent := by
  unfold extent
  rw [(h.size_perform t).1]
  exact Finset.sum_le_sum fun n _ => hs.extent_cell_perform_le ⟨n⟩

theorem extent_perform_lt (hs : h.Sound (t.holdings ++ o)) (hl : h.Loses (h.perform t).2 id) :
    (h.perform t).2.extent < h.extent := by
  unfold extent
  rw [(h.size_perform t).1]
  apply Finset.sum_lt_sum fun n _ => hs.extent_cell_perform_le ⟨n⟩
  exact ⟨id.number, Finset.mem_range.2 hl.built, hs.extent_cell_perform_lt hl⟩

end Sound
end Heap

namespace Execution

open Heap

/-! ## A release at work -/

/-- What the heap and the tasks weigh, which bounds the steps of a release. -/
def remaining (e : Execution) : Nat := e.heap.weight + Task.weights e.tasks

def settled (e : Execution) : Execution := ⟨e.heap.run e.tasks, e.held, e.reading, []⟩

/-- A step while tasks are left. -/
def Working (e e' : Execution) : Prop := e.tasks ≠ [] ∧ ∃ d, Step e d e'

inductive Works : Nat → Execution → Execution → Prop
  | none {e : Execution} : Works 0 e e
  | next {n : Nat} {e e' e'' : Execution} (hw : Working e e') (hr : Works n e' e'') :
      Works (n + 1) e e''

variable {past : List (Deed × Execution)} {e e' m : Execution} {n : Nat}

/-- While tasks are left, the first of them is done. -/
theorem Working.exists_task (hw : Working e e') :
    ∃ t ts, e = ⟨e.heap, e.held, e.reading, t :: ts⟩ ∧
      e' = ⟨(e.heap.perform t).2, e.held, e.reading, (e.heap.perform t).1 ++ ts⟩ := by
  obtain ⟨hne, d, hd⟩ := hw
  cases hd with
  | work => exact ⟨_, _, rfl, rfl⟩
  | _ => exact absurd rfl hne

theorem Working.of_perform {h h' : Heap} {xs : List Holding} {rd : List NodeId} {t : Task}
    {ts us : List Task} (hp : h.perform t = (us, h')) :
    Working ⟨h, xs, rd, t :: ts⟩ ⟨h', xs, rd, us ++ ts⟩ := by
  have hs : Step ⟨h, xs, rd, t :: ts⟩ .other _ := .work
  rw [hp] at hs
  exact ⟨nofun, _, hs⟩

theorem Working.remaining_lt (hw : Working e e') : e'.remaining < e.remaining := by
  obtain ⟨t, ts, he, rfl⟩ := hw.exists_task
  have hlt := e.heap.weight_perform_lt t
  rw [he]
  simp only [remaining, Task.weights, total_append, total_cons] at hlt ⊢
  omega

theorem Working.settled_eq (hw : Working e e') : e'.settled = e.settled := by
  obtain ⟨t, ts, he, rfl⟩ := hw.exists_task
  rw [he]
  simp only [settled, run_cons]

theorem Working.extent_le (hs : e.Sound) (hw : Working e e') :
    e'.heap.extent ≤ e.heap.extent := by
  obtain ⟨t, ts, he, rfl⟩ := hw.exists_task
  rw [he] at hs
  exact hs.first.extent_perform_le

theorem Working.extent_lt {id : NodeId} (hs : e.Sound) (hw : Working e e')
    (hl : e.heap.Loses e'.heap id) : e'.heap.extent < e.heap.extent := by
  obtain ⟨t, ts, he, rfl⟩ := hw.exists_task
  rw [he] at hs
  exact hs.first.extent_perform_lt hl

namespace Works

theorem run (hw : Works n e m) (hr : Run past e) : ∃ past', Run past' m := by
  induction hw generalizing past with
  | none => exact ⟨past, hr⟩
  | next hw _ ih =>
    obtain ⟨-, d, hd⟩ := hw
    exact ih (hr.step hd)

theorem add_remaining_le (hw : Works n e m) : n + m.remaining ≤ e.remaining := by
  induction hw with
  | none => exact (Nat.zero_add _).le
  | next hw _ ih =>
    have hlt := hw.remaining_lt
    omega

theorem settled_eq (hw : Works n e m) : m.settled = e.settled := by
  induction hw with
  | none => rfl
  | next hw _ ih => rw [ih, hw.settled_eq]

/-- Tasks are worked off from the first to the last. -/
theorem exists_settled (e : Execution) : ∃ n, Works n e e.settled := by
  obtain ⟨h, xs, rd, ts⟩ := e
  induction h, ts using run_induction with
  | nil h =>
    rw [settled, run_nil]
    exact ⟨0, .none⟩
  | cons h t rest ih =>
    obtain ⟨n, hn⟩ := ih
    rw [settled, run_cons]
    exact ⟨n + 1, .next ⟨nofun, _, .work⟩ hn⟩

end Works

/-! ## What begins a release -/

/-- A caller drops a handle or a value, or the payload that a write or a taking hands out. -/
inductive Drops : Execution → Execution → Prop
  | handle {h : Heap} {xs kept : List Holding} {rd : List NodeId} {id : NodeId}
      (hp : xs.Perm (.strong id :: kept)) : Drops ⟨h, xs, rd, []⟩ ⟨h, kept, rd, [.handle id]⟩
  | value {h : Heap} {xs kept : List Holding} {rd : List NodeId} {v : Value}
      (hp : xs.Perm (.value v :: kept)) : Drops ⟨h, xs, rd, []⟩ ⟨h, kept, rd, [.value v]⟩
  | set {h h' : Heap} {xs kept : List Holding} {rd : List NodeId} {id : NodeId} {v old : Value}
      (hp : xs.Perm (.value v :: kept)) (hv : h.Visible (kept ++ rd.map .strong) (.node id))
      (hw : h.replace? id v = some (old, h')) :
      Drops ⟨h, xs, rd, []⟩ ⟨h', kept, rd, [.value old]⟩
  | take {h h' : Heap} {xs : List Holding} {rd : List NodeId} {id : NodeId} {old : Value}
      (hv : h.Visible (xs ++ rd.map .strong) (.node id))
      (hw : h.replace? id .nil = some (old, h')) :
      Drops ⟨h, xs, rd, []⟩ ⟨h', xs, rd, [.value old]⟩

theorem Drops.leads (hd : Drops e m) : Leads e m := by
  cases hd with
  | handle hp => exact (Leads.arrange hp).trans (.step .dropHandle)
  | value hp => exact (Leads.arrange hp).trans (.step .dropValue)
  | set hp hv hw => exact ((Leads.arrange hp).trans (.write hv hw)).trans (.step .dropValue)
  | take hv hw =>
    exact ((Leads.deal (.scalar rfl)).trans (.write hv hw)).trans (.step .dropValue)

/-- A release that is under way at a moment of a run comes to its end in a bounded number of steps,
whatever the heap looks like, and each frame that it destroys or unlinks makes the extent of the
heap smaller. Whatever a caller drops begins such a release. -/
theorem Run.releases_end (hr : Run past e) :
    (∀ n m, Works n e m → n + m.remaining ≤ e.remaining ∧ (m.tasks = [] → m = e.settled) ∧
      ∃ k, Works k m e.settled) ∧
    (∀ n m m', Works n e m → Working m m' → m'.heap.extent ≤ m.heap.extent ∧
      ∀ id, m.heap.Loses m'.heap id → m'.heap.extent < m.heap.extent) ∧
    ∀ m, Drops e m → (∃ later, Run (later ++ past) m) ∧ ∃ n ≤ m.remaining, Works n m m.settled := by
  refine ⟨?_, ?_, ?_⟩
  · intro n m hw
    refine ⟨hw.add_remaining_le, fun ht => ?_, ?_⟩
    · rw [← hw.settled_eq, settled, ht, run_nil, ← ht]
    · rw [← hw.settled_eq]
      exact Works.exists_settled m
  · intro n m m' hw hm
    obtain ⟨past', hr'⟩ := hw.run hr
    exact ⟨hm.extent_le hr'.sound, fun id hl => hm.extent_lt hr'.sound hl⟩
  · intro m hd
    obtain ⟨n, hn⟩ := Works.exists_settled m
    have hle := hn.add_remaining_le
    exact ⟨hr.leads hd.leads, n, by omega, hn⟩

/-- Letting go of the node that links to itself takes 13 steps at most. Where the node has no link
its frame is destroyed by the first step, and the heap has nothing in it then. -/
theorem releases_end_selfLink :
    Run SelfLink.past SelfLink.now ∧ Drops SelfLink.now ⟨SelfLink.linked, [], [], [.handle ⟨1⟩]⟩ ∧
    (∃ n ≤ 13, ∃ m, Works n ⟨SelfLink.linked, [], [], [.handle ⟨1⟩]⟩ m ∧ m.tasks = []) ∧
    ∃ past e m, Run past e ∧ Works 0 e e ∧ Working e m ∧ e.heap.Loses m.heap ⟨1⟩ ∧
      m.heap.extent < e.heap.extent := by
  have hd : Drops SelfLink.now ⟨SelfLink.linked, [], [], [.handle ⟨1⟩]⟩ := .handle (.refl _)
  obtain ⟨-, n, hn, hw⟩ := (Run.releases_end SelfLink.run).2.2 _ hd
  have hr := SelfLink.run_built.step .dropHandle
  have hone : Working ⟨SelfLink.built, [], [], [.handle ⟨1⟩]⟩ _ := ⟨nofun, _, .work⟩
  have hl : SelfLink.built.Loses (SelfLink.built.perform (.handle ⟨1⟩)).2 ⟨1⟩ :=
    .inl ⟨rfl, by decide⟩
  exact ⟨SelfLink.run, hd, ⟨n, hn, _, hw, rfl⟩, _, _, _, hr, .none, hone, hl,
    ((Run.releases_end hr).2.1 0 _ _ .none hone).2 ⟨1⟩ hl⟩

end Execution
end GraphStack
