import GraphStack.Proofs.Execution.Counts
import GraphStack.Proofs.Execution.Teardown

/-!
# One unlinking

A release takes the link out of a frame that it holds the only handle of. The link is replaced by
nil and then let go of, while the walk already has a handle of its own to the linked frame; so that
frame keeps a handle and nothing happens to it. The frame that was unlinked waits for the task that
lets go of its handle: until then no task has anything to do with it, and that task destroys it.
-/

namespace GraphStack

/-- The task looks at the node or changes it, or lets go of a handle to it. -/
def Task.Touches (id : NodeId) : Task → Prop
  | .value v => .strong id ∈ v.handles
  | .values vs => .strong id ∈ Value.handlesAll vs
  | .unlink other => other = id
  | .walk other => other = id
  | .handle other => other = id
  | .close other => other = id
  | .finish => False

/-- What unlinks the frame of a released value is followed by what lets go of that frame. -/
def Task.Paired : List Task → Prop
  | [] => True
  | .unlink id :: rest => rest.head? = some (.handle id) ∧ Paired rest
  | _ :: rest => Paired rest

theorem Task.Paired.tail {t : Task} {ts : List Task} (hp : Paired (t :: ts)) : Paired ts := by
  cases t <;> first | exact hp.2 | exact hp

namespace Heap

variable {h : Heap} {id tail : NodeId} {t : Task} {ts : List Task} {o : List Holding}

theorem paired_perform (hp : Task.Paired (t :: ts)) : Task.Paired ((h.perform t).1 ++ ts) := by
  have ht := hp.tail
  match t with
  | .value (.list items) => exact ht
  | .value (.map t es) =>
    rw [perform_map]
    split <;> exact ht
  | .value (.node id) => exact ⟨rfl, ht⟩
  | .value .nil => exact ht
  | .value (.bool _) => exact ht
  | .value (.number _) => exact ht
  | .value (.text _) => exact ht
  | .values [] => exact ht
  | .values (v :: vs) => exact ht
  | .unlink id =>
    rcases h.takeTail_cases id with he | ⟨-, -, he⟩ | ⟨tail, -, -, -, he⟩ <;>
      simp only [perform, he] <;> exact ht
  | .walk id =>
    rcases h.takeTail_cases id with he | ⟨-, -, he⟩ | ⟨tail, -, -, -, he⟩ <;>
      simp only [perform, he] <;> exact ht
  | .handle id =>
    rw [perform_handle]
    split <;> exact ht
  | .close id => exact ht
  | .finish => exact ht

/-! ## A node that a task does not touch -/

theorem cell_detach_of_ne {id' : NodeId} (hid : id ≠ id') (htail : tail ≠ id') :
    (h.detach id tail).cell id' = h.cell id' := by
  rw [detach, setPayload, cell_modifyCell_of_ne _ hid, addStrong, cell_modifyCell_of_ne _ htail]

theorem cell_endLease_of_ne {id' : NodeId} (hn : id ≠ id') :
    (h.endLease id).cell id' = h.cell id' := by
  unfold endLease
  split
  · rfl
  · next b _ =>
    have hc : ((h.modifyCell id fun c => { c with lease := none }).giveBack b).cell id' =
      (h.modifyCell id fun c => { c with lease := none }).cell id' := rfl
    rw [hc, cell_modifyCell_of_ne _ hn]

/-- Where no payload has a link to the node, no frame links to it. -/
theorem ne_of_inside {other : NodeId} (hi : h.inside (.strong id) = 0)
    (hp : (h.cell other).payload.node? = some tail) : tail ≠ id := by
  rintro rfl
  have hv : (h.cell other).payload = .node tail := by
    cases hq : (h.cell other).payload <;> simp_all [Value.node?]
  have hle := count_payload_le_inside (h := h) other (.strong tail)
  rw [hv, hi] at hle
  simp [Value.handles] at hle

/-- A task that does not touch a node leaves it alone if no payload and no tree leads there. -/
theorem cell_perform_of_not_touches (hi : h.inside (.strong id) = 0) (ht : ¬ t.Touches id) :
    (h.perform t).2.cell id = h.cell id := by
  have he := h.effect_perform t
  generalize (h.perform t).2 = h' at he ⊢
  cases he with
  | keep => rfl
  | refuse => rfl
  | @detach _ other tail hc _ hp =>
    have hn : other ≠ id := by
      rcases hc with rfl | rfl <;> exact ht
    exact cell_detach_of_ne hn (ne_of_inside hi hp)
  | dropCopy => rfl
  | fell => rfl
  | dropStrong => exact cell_modifyCell_of_ne _ ht
  | destroy => exact (cell_modifyCell_of_ne _ ht).trans (cell_modifyCell_of_ne _ ht)
  | endLease => exact cell_endLease_of_ne ht

/-- The tasks that it leaves do not touch the node either. -/
theorem not_touches_perform (hi : h.inside (.strong id) = 0) (ht : ¬ t.Touches id) :
    ∀ u ∈ (h.perform t).1, ¬ u.Touches id := by
  have hpay (other : NodeId) : ¬ (Task.value (h.cell other).payload).Touches id := by
    intro hx
    have hle := count_payload_le_inside (h := h) other (.strong id)
    have hpos := List.count_pos_iff.2 hx
    omega
  have htree (m : MapId) : ¬ (Task.values ((h.tree m).entries.map (·.2))).Touches id := by
    intro hx
    have hle := count_tree_le_inside (h := h) m (.strong id)
    have hpos : 0 < (h.tree m).handles.count (.strong id) := List.count_pos_iff.2 hx
    omega
  have hnode {other : NodeId} (hn : other ≠ id) : ¬ (Task.value (.node other)).Touches id := by
    intro hx
    cases List.mem_singleton.1 hx
    exact hn rfl
  match t with
  | .value (.list items) => simpa [perform, Task.Touches, Value.handles] using ht
  | .value (.map m es) =>
    rw [perform_map]
    split
    · simpa [Task.Touches] using htree m
    · simp
  | .value (.node other) =>
    have hn : other ≠ id := by
      rintro rfl
      exact ht List.mem_cons_self
    simpa [perform, Task.Touches] using hn
  | .value .nil => simp [perform]
  | .value (.bool _) => simp [perform]
  | .value (.number _) => simp [perform]
  | .value (.text _) => simp [perform]
  | .values [] => simp [perform]
  | .values (v :: vs) =>
    simpa [perform, Task.Touches, Value.handlesAll, not_or] using ht
  | .unlink other =>
    rcases h.takeTail_cases other with he | ⟨-, -, he⟩ | ⟨tail, -, hp, -, he⟩
    · simp [perform, he]
    · simp [perform, he]
    · have hn := ne_of_inside hi hp
      simpa [perform, he, Task.Touches] using ⟨hnode hn, hn⟩
  | .walk other =>
    have hother : other ≠ id := ht
    rcases h.takeTail_cases other with he | ⟨-, -, he⟩ | ⟨tail, -, hp, -, he⟩
    · simpa [perform, he, Task.Touches] using hother
    · simpa [perform, he, Task.Touches] using hother
    · have hn := ne_of_inside hi hp
      simpa [perform, he, Task.Touches] using ⟨hnode hn, hother, hn⟩
  | .handle other =>
    have hother : other ≠ id := ht
    rw [perform_handle]
    split
    · simpa [Task.Touches] using ⟨hpay other, hother⟩
    · simp
  | .close other => simp [perform]
  | .finish => simp [perform]

/-! ## The link that moves -/

/-- The frame has one handle and a link for its payload. -/
def LinksAlone (h : Heap) (id tail : NodeId) : Prop :=
  (h.cell id).strong = 1 ∧ h.payload id = .node tail

/-- Outside of the payload of one frame nothing has changed but counts, and those of no node from or
to zero. -/
structure KeptAround (h : Heap) (id : NodeId) (h' : Heap) : Prop where
  alive : ∀ other, (h'.cell other).isAlive = (h.cell other).isAlive
  payload : ∀ other, other ≠ id → h'.payload other = h.payload other
  books : SameBooks h h'
  trees : h'.trees = h.trees
  journal : h'.journal = h.journal
  refusals : h'.refusals = h.refusals

theorem linksAlone_iff : h.LinksAlone id tail ↔
    (h.cell id).strong = 1 ∧ (h.payload id).node? = some tail := by
  unfold LinksAlone
  cases h.payload id <;> simp [Value.node?]

theorem keptAround_detach (hs : h.Sound o) (hp : (h.cell id).payload.node? = some tail) :
    h.KeptAround id (h.detach id tail) where
  alive other := by
    rw [Bool.eq_iff_iff, isAlive_iff, isAlive_iff, not_iff_not]
    exact hs.strong_detach_eq_zero hp other
  payload other hn := by rw [payload_detach, if_neg fun hi => hn hi.1.symm]
  books := sameBooks_detach h id tail
  trees := rfl
  journal := rfl
  refusals := rfl

theorem keptAround_clear (h : Heap) (id : NodeId) : h.KeptAround id (h.setPayload id .nil) where
  alive other := by rw [Cell.isAlive, strong_setPayload, Cell.isAlive]
  payload other hn := payload_setPayload_of_ne hn.symm
  books := sameBooks_setPayload h id .nil
  trees := rfl
  journal := rfl
  refusals := rfl

theorem dropStrong_detach (h : Heap) (id tail : NodeId) :
    (h.detach id tail).dropStrong tail = h.setPayload id .nil := by
  simp only [detach, Heap.dropStrong, Heap.setPayload, Heap.addStrong, Heap.modifyCell]
  congr 1
  ext i
  · simp
  · simp only [Array.getElem_modify]
    split_ifs <;> rfl

/-- The link that was taken out leads to a frame with two handles at least, its own and the one of
the walk. -/
theorem Sound.two_le_detach (hs : h.Sound o) (hp : (h.cell id).payload.node? = some tail) :
    2 ≤ ((h.detach id tail).cell tail).strong := by
  have ha := hs.strong_of_payload hp
  rw [strong_detach, if_pos ⟨rfl, built_of_strong ha⟩]
  omega

theorem takeTail_of_two_le (h2 : 2 ≤ (h.cell id).strong) : h.takeTail id = (none, h) := by
  have hu : h.uniqueTail? id = none := if_neg (by omega)
  rw [takeTail, hu]

end Heap

namespace Execution

open Heap

variable {past : List (Deed × Execution)} {e e' m : Execution} {h h' : Heap} {id tail : NodeId}
  {xs : List Holding} {rd : List NodeId} {t : Task} {ts us before after : List Task} {n : Nat}
  {c : Cell}

theorem Run.paired (hr : Run past e) : Task.Paired e.tasks := by
  induction hr with
  | start => trivial
  | step _ hd ih =>
    cases hd with
    | work => exact paired_perform ih
    | _ => trivial

/-! ## A frame that waits to be let go of -/

/-- A later task lets go of the one handle that the frame has, and no task before that one touches
it. -/
structure Waiting (e : Execution) (id : NodeId) (c : Cell) (before after : List Task) : Prop where
  tasks : e.tasks = before ++ .handle id :: after
  untouched : ∀ t ∈ before, ¬ t.Touches id
  cell : e.heap.cell id = c
  only : (e.heap.handlesAround e.owned).count (.strong id) = 1

/-- Nothing in the heap leads to a frame that waits. -/
theorem Waiting.inside (hw : e.Waiting id c before after) (hs : e.Sound) :
    e.heap.inside (.strong id) = 0 := by
  have hm : .strong id ∈ Holding.handlesAll e.owned := by
    rw [owned, hw.tasks]
    simp [Task.holdings, Holding.handles]
  have hpos := List.count_pos_iff.2 hm
  have hc := hs.heap.count_handlesAround (.strong id)
  have ho := hw.only
  omega

theorem Waiting.strong (hw : e.Waiting id c before after) (hs : e.Sound) :
    (e.heap.cell id).strong = 1 := (hs.heap.counter_eq (.strong id)).trans hw.only

/-- A task that comes before the one that lets go of the frame. -/
theorem Waiting.next (hw : e.Waiting id c (t :: before) after) (hs : e.Sound)
    (he : Working e e') : ∃ before', e'.Waiting id c before' after := by
  have hi := hw.inside hs
  have h1 := hw.strong hs
  obtain ⟨ho, hno, hcell, -⟩ := hw
  obtain ⟨d, hd⟩ := he.2
  have hs' := hd.sound hs
  obtain ⟨u, ts, heq, rfl⟩ := he.exists_task
  rw [heq] at ho
  cases ho
  have ht := hno t List.mem_cons_self
  have hkeep := cell_perform_of_not_touches hi ht
  refine ⟨(e.heap.perform t).1 ++ before, (List.append_assoc _ _ _).symm, ?_,
    hkeep.trans hcell, ?_⟩
  · intro u hu
    rcases List.mem_append.1 hu with hu | hu
    · exact not_touches_perform hi ht u hu
    · exact hno u (List.mem_cons_of_mem _ hu)
  · rw [← hs'.heap.counter_eq]
    exact (congrArg Cell.strong hkeep).trans h1

/-- The task that lets go of the frame destroys it. -/
theorem Waiting.last (hw : e.Waiting id c [] after) (hs : e.Sound) (he : Working e e') :
    e'.tasks = .value c.payload :: .close id :: after ∧ (e'.heap.cell id).strong = 0 := by
  have h1 := hw.strong hs
  obtain ⟨ho, -, hcell, -⟩ := hw
  obtain ⟨u, ts, heq, rfl⟩ := he.exists_task
  rw [heq] at ho
  cases ho
  have hz : ((e.heap.dropStrong id).cell id).strong = 0 := by
    rw [strong_dropStrong (built_of_strong (by omega)), h1]
  rw [perform_handle, if_pos hz, hcell]
  exact ⟨rfl, by rw [strong_setPayload, hz]⟩

theorem Working.strong_eq_zero (hs : e.Sound) (he : Working e e')
    (hz : (e.heap.cell id).strong = 0) : (e'.heap.cell id).strong = 0 := by
  obtain ⟨t, ts, heq, rfl⟩ := he.exists_task
  rw [heq] at hs
  exact hs.first.strong_perform_eq_zero hz

/-- The frame waits to be let go of, or is gone. -/
def Expiring (e : Execution) (id : NodeId) (c : Cell) (after : List Task) : Prop :=
  (∃ before, e.Waiting id c before after) ∨ (e.heap.cell id).strong = 0

theorem Expiring.working (hx : e.Expiring id c after) (hs : e.Sound) (he : Working e e') :
    e'.Expiring id c after := by
  rcases hx with ⟨before, hw⟩ | hz
  · cases before with
    | nil => exact .inr (hw.last hs he).2
    | cons t before => exact .inl (hw.next hs he)
  · exact .inr (he.strong_eq_zero hs hz)

theorem Expiring.works (hx : e.Expiring id c after) (hs : e.Sound) (hw : Works n e m) :
    m.Expiring id c after := by
  induction hw with
  | none => exact hx
  | next he _ ih =>
    obtain ⟨d, hd⟩ := he.2
    exact ih (hx.working hs he) (hd.sound hs)

theorem Expiring.last (hx : e.Expiring id c after) (hs : e.Sound)
    (ht : e.tasks = .handle id :: after) (he : Working e e') : (e'.heap.cell id).strong = 0 := by
  rcases hx with ⟨before, hw⟩ | hz
  · have hb : before = [] := by
      have hlength := congrArg List.length (hw.tasks.symm.trans ht)
      simpa using hlength
    subst hb
    exact (hw.last hs he).2
  · exact he.strong_eq_zero hs hz

theorem Expiring.settled (hx : e.Expiring id c after) (hs : e.Sound) :
    (e.settled.heap.cell id).strong = 0 := by
  obtain ⟨n, hn⟩ := Works.exists_settled e
  rcases hx.works hs hn with ⟨before, hw⟩ | hz
  · exact absurd hw.tasks (by simp [Execution.settled])
  · exact hz

/-! ## The call -/

/-- The first task is about to take the link out of a frame. The tasks that go on afterwards lead up
to the one that lets go of the frame, which ends what the frame was held for. -/
inductive Unlinking (id tail : NodeId) : List Task → List Task → List Task → Prop
  | first {ts : List Task} : Unlinking id tail (.unlink id :: .handle id :: ts) [.walk tail] ts
  | further {ts : List Task} : Unlinking id tail (.walk id :: ts) [] (.walk tail :: ts)

/-- The moment at which the old link is about to be let go of, before the tasks in `rest`. -/
def dropping (e : Execution) (id tail : NodeId) (rest : List Task) : Execution :=
  ⟨e.heap.detach id tail, e.held, e.reading, .value (.node tail) :: rest⟩

/-- The moment at which the link has moved. -/
def unlinked (e : Execution) (id : NodeId) (rest : List Task) : Execution :=
  ⟨e.heap.setPayload id .nil, e.held, e.reading, rest⟩

/-- A frame that has its link taken out is held by the tasks. -/
theorem Sound.held_of_unlinking (hs : e.Sound) (ht : e.tasks = t :: ts)
    (hc : t = .unlink id ∨ t = .walk id) :
    .strong id ∈ Holding.handlesAll (Task.holdingsAll e.tasks) := by
  have hb := hs.backed
  rw [ht] at hb ⊢
  rcases hc with rfl | rfl
  · exact hb.held
  · exact List.mem_cons_self

/-- Nothing in the heap leads to a frame with one handle that has its link taken out. -/
theorem Sound.inside_of_unlinking (hs : e.Sound) (ht : e.tasks = t :: ts)
    (hc : t = .unlink id ∨ t = .walk id) (h1 : (e.heap.cell id).strong = 1) :
    e.heap.inside (.strong id) = 0 := by
  have hm : .strong id ∈ Holding.handlesAll e.owned := by
    rw [owned, Holding.handlesAll_append]
    exact List.mem_append_left _ (hs.held_of_unlinking ht hc)
  have hpos := List.count_pos_iff.2 hm
  have hcount : (e.heap.cell id).strong = _ := hs.heap.counted (.strong id)
  omega

theorem Works.of_cons (hw : Works n ⟨h, xs, rd, t :: ts⟩ m) (hp : h.perform t = (us, h')) :
    n = 0 ∧ m.heap = h ∨ ∃ k, n = k + 1 ∧ Works k ⟨h', xs, rd, us ++ ts⟩ m := by
  cases hw with
  | none => exact .inl ⟨rfl, rfl⟩
  | @next k _ _ _ hone hrest =>
    obtain ⟨t', ts', heq, rfl⟩ := hone.exists_task
    cases heq
    rw [hp] at hrest
    exact .inr ⟨k, rfl, hrest⟩

section Drop

variable {rest : List Task} (h2 : 2 ≤ ((e.heap.detach id tail).cell tail).strong)

include h2

theorem perform_unlink_dropping :
    (e.heap.detach id tail).perform (.unlink tail) = ([], e.heap.detach id tail) := by
  simp only [perform, takeTail_of_two_le h2]

theorem perform_handle_dropping :
    (e.heap.detach id tail).perform (.handle tail) = ([], e.heap.setPayload id .nil) := by
  have hb : tail.number < (e.heap.detach id tail).cells.size := built_of_strong (by omega)
  have hne : (((e.heap.detach id tail).dropStrong tail).cell tail).strong ≠ 0 := by
    rw [strong_dropStrong hb]
    omega
  rw [perform_handle, if_neg hne, dropStrong_detach]

/-- Letting go of the old link takes four steps. -/
theorem works_dropping : Works 4 (e.dropping id tail rest) (e.unlinked id rest) := by
  have hlast : Works 1 ⟨e.heap.setPayload id .nil, e.held, e.reading, .finish :: rest⟩
      (e.unlinked id rest) := .next (.of_perform rfl) .none
  exact .next (.of_perform rfl) (.next (.of_perform (perform_unlink_dropping h2))
    (.next (.of_perform (perform_handle_dropping h2)) hlast))

/-- The handle of the old link goes with the third of them. -/
theorem heap_of_dropping (hw : Works n (e.dropping id tail rest) m) (hn : n ≤ 4) :
    n ≤ 2 ∧ m.heap = e.heap.detach id tail ∨ 2 < n ∧ m.heap = e.heap.setPayload id .nil := by
  rcases Works.of_cons hw rfl with ⟨rfl, he⟩ | ⟨_, rfl, hw1⟩
  · exact .inl ⟨by omega, he⟩
  rcases Works.of_cons hw1 (perform_unlink_dropping h2) with ⟨rfl, he⟩ | ⟨_, rfl, hw2⟩
  · exact .inl ⟨by omega, he⟩
  rcases Works.of_cons hw2 (perform_handle_dropping h2) with ⟨rfl, he⟩ | ⟨_, rfl, hw3⟩
  · exact .inl ⟨by omega, he⟩
  rcases Works.of_cons hw3 rfl with ⟨rfl, he⟩ | ⟨k, rfl, hw4⟩
  · exact .inr ⟨by omega, he⟩
  obtain rfl : k = 0 := by omega
  cases hw4
  exact .inr ⟨by omega, rfl⟩

end Drop

/-- The tasks at a call, and those that go on when the link has moved. -/
theorem Run.exists_unlinking (hr : Run past e) (ht : e.tasks = t :: ts)
    (hc : t = .unlink id ∨ t = .walk id)
    (hl : e.heap.takeTail id = (some tail, e.heap.detach id tail)) :
    ∃ before after, Unlinking id tail e.tasks before after ∧
      Works 1 e (e.dropping id tail (before ++ .handle id :: after)) := by
  have hpair := hr.paired
  obtain ⟨h, xs, rd, tasks⟩ := e
  obtain rfl : tasks = t :: ts := ht
  rcases hc with rfl | rfl
  · obtain ⟨after, rfl⟩ : ∃ after, ts = .handle id :: after := by
      cases ts with
      | nil => cases hpair.1
      | cons u after => exact ⟨after, by rw [Option.some.inj hpair.1]⟩
    have hp : h.perform (.unlink id) = ([.value (.node tail), .walk tail], h.detach id tail) := by
      simp only [perform, hl]
    exact ⟨_, after, .first, .next (.of_perform hp) .none⟩
  · have hp : h.perform (.walk id) =
        ([.value (.node tail), .handle id, .walk tail], h.detach id tail) := by
      simp only [perform, hl]
    exact ⟨[], _, .further, .next (.of_perform hp) .none⟩

/-- A call that takes the link out of a frame, from before it until the frame is gone. -/
structure Unlinks (e : Execution) (id tail : NodeId) (before after : List Task) : Prop where
  alone : e.heap.LinksAlone id tail
  taken : e.heap.takeTail id = (some tail, e.heap.detach id tail)
  tasks : Unlinking id tail e.tasks before after
  call : Works 1 e (e.dropping id tail (before ++ .handle id :: after))
  drop : Works 4 (e.dropping id tail (before ++ .handle id :: after))
    (e.unlinked id (before ++ .handle id :: after))
  /-- As long as the handle of the old link is there, it is not the only one. -/
  shared : ∀ n m, n ≤ 2 → Works n (e.dropping id tail (before ++ .handle id :: after)) m →
    2 ≤ (m.heap.cell tail).strong
  kept : ∀ n m, n ≤ 4 → Works n (e.dropping id tail (before ++ .handle id :: after)) m →
    e.heap.KeptAround id m.heap
  count : ((e.heap.setPayload id .nil).cell tail).strong = (e.heap.cell tail).strong
  /-- The empty frame waits with one handle for the task that lets go of it, or is gone. -/
  expiring : ∀ n m, Works n (e.unlinked id (before ++ .handle id :: after)) m →
    m.Expiring id { e.heap.cell id with payload := .nil } after
  last : ∀ n m m', Works n (e.unlinked id (before ++ .handle id :: after)) m →
    m.tasks = .handle id :: after → Working m m' → (m'.heap.cell id).strong = 0
  destroyed : ((e.unlinked id (before ++ .handle id :: after)).settled.heap.cell id).strong = 0

theorem Run.unlinks (hr : Run past e) (ht : e.tasks = t :: ts) (hc : t = .unlink id ∨ t = .walk id)
    (h1 : (e.heap.cell id).strong = 1) (hp : (e.heap.cell id).payload.node? = some tail)
    (hl : e.heap.takeTail id = (some tail, e.heap.detach id tail)) :
    ∃ before after, e.Unlinks id tail before after := by
  have hs := hr.sound
  obtain ⟨before, after, htasks, hcall⟩ := hr.exists_unlinking ht hc hl
  have h2 := hs.heap.two_le_detach hp
  have hdrop : Works 4 (e.dropping id tail (before ++ .handle id :: after))
      (e.unlinked id (before ++ .handle id :: after)) := works_dropping h2
  obtain ⟨_, hcalled⟩ := hcall.run hr
  obtain ⟨_, hdropped⟩ := hdrop.run hcalled
  have hs' := hdropped.sound
  have hne : tail ≠ id := ne_of_inside (hs.inside_of_unlinking ht hc h1) hp
  have hbefore : ∀ u ∈ before, ¬ u.Touches id := by
    intro u hm
    generalize e.tasks = tasks at htasks
    cases htasks with
    | first => exact (List.mem_singleton.1 hm) ▸ hne
    | further => cases hm
  have hcell : (e.heap.setPayload id .nil).cell id = { e.heap.cell id with payload := .nil } :=
    cell_modifyCell_self _ (built_of_strong (by omega))
  have honly := (hs'.heap.counter_eq (.strong id)).symm.trans
    ((strong_setPayload e.heap id .nil id).trans h1)
  have hx : Expiring (e.unlinked id (before ++ .handle id :: after)) id
      { e.heap.cell id with payload := .nil } after := .inl ⟨before, rfl, hbefore, hcell, honly⟩
  refine ⟨before, after, linksAlone_iff.2 ⟨h1, hp⟩, hl, htasks, hcall, hdrop, ?_, ?_,
    strong_setPayload e.heap id .nil tail, fun n m hw => hx.works hs' hw, ?_, hx.settled hs'⟩
  · intro n m hn hw
    rcases heap_of_dropping h2 hw (by omega) with ⟨-, he⟩ | ⟨hgt, -⟩
    · rw [he]
      exact h2
    · omega
  · intro n m hn hw
    rcases heap_of_dropping h2 hw hn with ⟨-, he⟩ | ⟨-, he⟩
    · rw [he]
      exact keptAround_detach hs.heap hp
    · rw [he]
      exact keptAround_clear e.heap id
  · intro n m m' hw hm hlast
    obtain ⟨_, hr'⟩ := hw.run hdropped
    exact (hx.works hs' hw).last hr'.sound hm hlast

/-- A call takes a link out of a frame where the frame has one handle and links to another one, and
changes nothing otherwise. It empties the frame, and the count of the linked frame is in the end
what it was. While the old link goes, the linked frame has another handle: no node is destroyed, no
other link moves and no lease ends. The empty frame has one handle, with a task that nothing else
comes between, and that task destroys it. -/
theorem Run.unlinks_locally (hr : Run past e) (ht : e.tasks = t :: ts)
    (hc : t = .unlink id ∨ t = .walk id) :
    (∀ tail, ¬ e.heap.LinksAlone id tail) ∧ e.heap.takeTail id = (none, e.heap) ∨
      ∃ tail before after, e.Unlinks id tail before after := by
  have hs := hr.sound
  have hu : Unwinding e.heap e.outside e.heap (Task.holdingsAll e.tasks)
      (Task.closingsAll e.tasks) := hs.unwinding (.refl _) hs.closing
  rcases hu.takeTail_of_held (hs.held_of_unlinking ht hc) with ⟨hno, hl⟩ | ⟨tail, h1, hp, hl⟩
  · refine .inl ⟨fun tail ha => ?_, hl⟩
    obtain ⟨h1, hp⟩ := linksAlone_iff.1 ha
    rw [hno h1] at hp
    cases hp
  · exact .inr ⟨tail, hr.unlinks ht hc h1 hp hl⟩

/-- Of two frames the upper one is about to be let go of. -/
theorem unlinks_locally_two : ∃ past e, Run past e ∧
    e.tasks = [.unlink ⟨2⟩, .handle ⟨2⟩, .finish] ∧
    ((Task.unlink ⟨2⟩ = .unlink ⟨2⟩) ∨ Task.unlink ⟨2⟩ = .walk ⟨2⟩) ∧
    ∃ before after, e.Unlinks ⟨2⟩ ⟨1⟩ before after := by
  have h1 : Run _ ⟨SelfLink.built, [.value (.node ⟨1⟩)], [], []⟩ :=
    SelfLink.run_built.step (.deal .link)
  have h2 : Run _ ⟨SelfLink.built.build .single (.node ⟨1⟩) none, [.strong ⟨2⟩], [], []⟩ :=
    h1.step (.build (fun _ hb => by cases hb)
      (construct_direct SelfLink.built .single (.node ⟨1⟩)))
  have h3 := ((h2.step (.deal .link)).step .dropValue).step .work
  refine ⟨_, _, h3, rfl, .inl rfl, ?_⟩
  rcases Run.unlinks_locally h3 rfl (.inl rfl) with ⟨hno, -⟩ | ⟨tail, before, after, hu⟩
  · exact absurd ⟨rfl, rfl⟩ (hno ⟨1⟩)
  · obtain rfl : tail = ⟨1⟩ := Value.node.inj (hu.alone.2.symm.trans rfl)
    exact ⟨before, after, hu⟩

end Execution
end GraphStack
