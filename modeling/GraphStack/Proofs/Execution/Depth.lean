import GraphStack.Proofs.Execution.Links
import GraphStack.Proofs.Execution.Teardown

/-!
# How deep releases are nested

An activation is the release of a list, of a map or of a link that has begun and has not ended. The
walk along direct links lets go of one frame after the other inside a single activation, so a chain
of any length needs no more activations than its last frame does. A link that is held in a list or
in a map is released inside the activation of that list or map, and the walk that begins there is
one level further down: what counts is how many such links a way through the heap passes.
-/

namespace GraphStack

theorem Value.depth_nil : Value.nil.depth = 0 := rfl

theorem Value.depth_node (id : NodeId) : (Value.node id).depth = 0 := rfl

namespace Heap

/-- A way along links, with the number of them that are held in a list or in a map. -/
inductive Way (h : Heap) : Nat → NodeId → NodeId → Prop
  | here {a : NodeId} : Way h 0 a a
  | direct {n : Nat} {a b c : NodeId} (hl : (h.payload a).node? = some b) (hw : Way h n b c) :
      Way h n a c
  | inner {n : Nat} {a b c : NodeId} (hn : (h.payload a).node? = none)
      (hl : (h.payload a).Names b) (hw : Way h n b c) : Way h (n + 1) a c

/-- Every way from the node passes fewer inner links. -/
def Below (h : Heap) (k : Nat) (a : NodeId) : Prop := ∀ n b, h.Way n a b → n < k

/-- So many activations are enough for the value, where no payload is more than `d` deep. -/
def Suffices (h : Heap) (d n : Nat) (v : Value) : Prop :=
  ∃ k, (∀ b, v.Names b → h.Below k b) ∧ v.depth + k * (d + 1) + 1 ≤ n

/-- So many activations are enough to walk on from the node, inside the activation of a link. -/
def SufficesFrom (h : Heap) (d n : Nat) (a : NodeId) : Prop :=
  ∃ k, h.Below (k + 1) a ∧ d + k * (d + 1) + 1 ≤ n

variable {h : Heap} {d n : Nat} {v w : Value} {a b : NodeId}

theorem Suffices.exists_succ (hs : h.Suffices d n v) : ∃ m, n = m + 1 := by
  obtain ⟨k, -, hle⟩ := hs
  exact Nat.exists_eq_add_one.2 (by omega)

theorem SufficesFrom.exists_succ (hs : h.SufficesFrom d n a) : ∃ m, n = m + 1 := by
  obtain ⟨k, -, hle⟩ := hs
  exact Nat.exists_eq_add_one.2 (by omega)

theorem suffices_nil (h : Heap) (d m : Nat) : h.Suffices d (m + 1) .nil :=
  ⟨0, fun _ hn => (nomatch hn), by rw [Value.depth_nil]; omega⟩

/-- What is in a list or a map is released one level further down. -/
theorem Suffices.part (hs : h.Suffices d (n + 1) w) (hd : v.depth < w.depth)
    (hn : ∀ b, v.Names b → w.Names b) : h.Suffices d n v := by
  obtain ⟨k, hb, hle⟩ := hs
  exact ⟨k, fun b hv => hb b (hn b hv), by omega⟩

theorem Suffices.item {vs : List Value} (hs : h.Suffices d (n + 1) (.list vs)) (hv : v ∈ vs) :
    h.Suffices d n v :=
  hs.part (Nat.lt_succ_of_le (Value.depth_le_depths hv)) fun _ hn => .item hv hn

theorem Suffices.entry {t : MapId} {es : List (String × Value)} {e : String × Value}
    (hs : h.Suffices d (n + 1) (.map t es)) (he : e ∈ es) : h.Suffices d n e.2 :=
  hs.part (Nat.lt_succ_of_le (Value.depth_le_entryDepths he)) fun _ hn => .entry he hn

/-- A link is one activation, and the walk from there is inside it. -/
theorem Suffices.walk (hs : h.Suffices d (n + 1) (.node a)) : h.SufficesFrom d n a := by
  obtain ⟨k, hb, hle⟩ := hs
  have hbelow : h.Below k a := hb a .link
  have hpos : 0 < k := hbelow 0 a .here
  obtain ⟨m, rfl⟩ := Nat.exists_eq_add_one.2 hpos
  rw [Value.depth_node, Nat.add_mul] at hle
  exact ⟨m, hbelow, by omega⟩

/-- However long a walk is, it goes on with the same activations. -/
theorem SufficesFrom.direct (hs : h.SufficesFrom d n a) (hl : (h.payload a).node? = some b) :
    h.SufficesFrom d n b := by
  obtain ⟨k, hb, hle⟩ := hs
  exact ⟨k, fun m c hw => hb m c (.direct hl hw), hle⟩

/-- Where a walk ends, its activations are enough for the payload. -/
theorem SufficesFrom.payload (hs : h.SufficesFrom d n a) (hl : (h.payload a).node? = none)
    (hd : (h.payload a).depth ≤ d) : h.Suffices d n (h.payload a) := by
  obtain ⟨k, hb, hle⟩ := hs
  refine ⟨k, fun b hn m c hw => ?_, by omega⟩
  have hlt := hb (m + 1) c (.inner hl hn hw)
  omega

/-- A handle that is let go of without a walk needs one more: its payload can be a link. -/
theorem SufficesFrom.start (hs : h.SufficesFrom d n a) (hd : (h.payload a).depth ≤ d) :
    h.Suffices d (n + 1) (h.payload a) := by
  cases hl : (h.payload a).node? with
  | none =>
    obtain ⟨k, hb, hle⟩ := hs.payload hl hd
    exact ⟨k, hb, by omega⟩
  | some b =>
    obtain ⟨k, hb, hle⟩ := hs.direct hl
    have hv : h.payload a = .node b := by
      generalize h.payload a = v at hl
      cases v <;> cases hl
      rfl
    rw [hv]
    refine ⟨k + 1, ?_, ?_⟩
    · rintro b ⟨⟩
      exact hb
    · rw [Value.depth_node, Nat.add_mul]
      omega

end Heap

/-! ## What the tasks of a release need -/

def Task.isFinish : Task → Bool
  | .finish => true
  | _ => false

/-- How deep releases of values are nested at the moment. A scalar is released in one step and never
counts. -/
def Execution.activations (e : Execution) : Nat := e.tasks.countP Task.isFinish

/-- So many activations are enough for the task, in a release that began in `h₀`. -/
def Task.Suffices (h₀ h : Heap) (d n : Nat) : Task → Prop
  | .value v => h₀.Suffices d n v
  | .values vs => ∀ v ∈ vs, h₀.Suffices d n v
  | .walk id => h₀.SufficesFrom d n id
  | .handle id => h₀.Suffices d n (h.payload id)
  | .close _ => True
  | .unlink _ | .finish => False

/-- Inside the activations that are under way, every task has enough left of the limit; so many are
left for the first one. -/
inductive Staged (h₀ h : Heap) (d limit : Nat) : Nat → List Task → Prop
  | nil : Staged h₀ h d limit limit []
  | task {n : Nat} {t : Task} {ts : List Task} (ht : t.Suffices h₀ h d n)
      (hs : Staged h₀ h d limit n ts) : Staged h₀ h d limit n (t :: ts)
  | finish {n : Nat} {ts : List Task} (hs : Staged h₀ h d limit (n + 1) ts) :
      Staged h₀ h d limit n (.finish :: ts)

/-- The tasks of a release that stays within the limit. Only the first task can be the release of a
link that the walk has doubled, an unlinking, or a handle of a frame that stays. -/
inductive Limited (h₀ h : Heap) (d limit : Nat) : List Task → Prop
  | staged {n : Nat} {ts : List Task} (hs : Staged h₀ h d limit n ts) : Limited h₀ h d limit ts
  | doubled {n : Nat} {id : NodeId} {ts : List Task} (hn : (h.cell id).strong ≠ 1)
      (hs : Staged h₀ h d limit (n + 1) ts) : Limited h₀ h d limit (.value (.node id) :: ts)
  | unlink {n : Nat} {id : NodeId} {ts : List Task}
      (hw : (h.cell id).strong = 1 → h₀.SufficesFrom d n id) (hs : Staged h₀ h d limit n ts) :
      Limited h₀ h d limit (.unlink id :: .handle id :: ts)
  | shared {n : Nat} {id : NodeId} {ts : List Task} (hn : (h.cell id).strong ≠ 1)
      (hs : Staged h₀ h d limit n ts) : Limited h₀ h d limit (.handle id :: ts)

variable {h₀ h h' : Heap} {d n limit : Nat} {t : Task} {ts : List Task} {id tail : NodeId}

theorem Staged.left_add (hs : Staged h₀ h d limit n ts) :
    n + ts.countP Task.isFinish = limit := by
  induction hs with
  | nil => rfl
  | @task n t ts ht _ ih =>
    have hf : ¬ t.isFinish := by
      cases t <;> first | exact ht.elim | exact Bool.false_ne_true
    rwa [List.countP_cons_of_neg hf]
  | finish _ ih =>
    rw [List.countP_cons_of_pos rfl]
    omega

theorem Limited.le (hl : Limited h₀ h d limit ts) : ts.countP Task.isFinish ≤ limit := by
  cases hl with
  | staged hs => exact hs.left_add ▸ Nat.le_add_left _ _
  | doubled _ hs => exact hs.left_add ▸ Nat.le_add_left _ _
  | unlink _ hs => exact hs.left_add ▸ Nat.le_add_left _ _
  | shared _ hs => exact hs.left_add ▸ Nat.le_add_left _ _

/-- A frame that is unlinked is held by a later task. -/
theorem Limited.held (hl : Limited h₀ h d limit (.unlink id :: ts)) :
    .strong id ∈ Holding.handlesAll (Task.holdingsAll ts) := by
  cases hl with
  | staged hs =>
    cases hs with
    | task ht => exact ht.elim
  | unlink => exact List.mem_cons_self

/-- A payload that is taken out leaves less to do. -/
theorem Staged.shrink (hs : Staged h₀ h d limit n ts)
    (hp : ∀ id, h'.payload id = h.payload id ∨ h'.payload id = .nil) :
    Staged h₀ h' d limit n ts := by
  induction hs with
  | nil => exact .nil
  | @task n t ts ht _ ih =>
    refine .task ?_ ih
    cases t with
    | handle id =>
      rcases hp id with he | he
      · rwa [Task.Suffices, he]
      · obtain ⟨m, rfl⟩ := Heap.Suffices.exists_succ ht
        rw [Task.Suffices, he]
        exact Heap.suffices_nil h₀ d m
    | _ => exact ht
  | finish _ ih => exact .finish ih

theorem Staged.perform (hs : Staged h₀ h d limit n ts) (t : Task) :
    Staged h₀ (h.perform t).2 d limit n ts :=
  hs.shrink (h.payload_perform_eq t)

namespace Heap.Unwinding

variable {kept o : List Holding} {ids : List NodeId}

theorem payload_eq_or (hu : Unwinding h₀ kept h o ids) (id : NodeId) :
    h.payload id = h₀.payload id ∨ h.payload id = .nil :=
  (hu.settling.payload id).imp_right And.left

/-- A frame that only the walk holds, and that has no link, is destroyed next. -/
theorem suffices_payload (hu : Unwinding h₀ kept h o ids) (hd : ∀ a, (h₀.payload a).depth ≤ d)
    (hw : h₀.SufficesFrom d n id) (hp : (h.payload id).node? = none) :
    h₀.Suffices d n (h.payload id) := by
  rcases hu.payload_eq_or id with he | he
  · rw [he] at hp ⊢
    exact hw.payload hp (hd id)
  · obtain ⟨m, rfl⟩ := hw.exists_succ
    rw [he]
    exact suffices_nil h₀ d m

/-- Where no link is taken, the frame stays or its payload is the end of the walk. -/
theorem limited_handle (hu : Unwinding h₀ kept h o ids) (hd : ∀ a, (h₀.payload a).depth ≤ d)
    (hw : (h.cell id).strong = 1 → h₀.SufficesFrom d n id) (hs : Staged h₀ h d limit n ts)
    (hp : (h.cell id).strong = 1 → (h.payload id).node? = none) :
    Limited h₀ h d limit (.handle id :: ts) := by
  by_cases h1 : (h.cell id).strong = 1
  · exact .staged (.task (hu.suffices_payload hd (hw h1) (hp h1)) hs)
  · exact .shared h1 hs

/-- The link that is taken out leads on, and the frame that it was in is left empty. -/
theorem detached (hu : Unwinding h₀ kept h o ids) (h1 : (h.cell id).strong = 1)
    (hp : (h.payload id).node? = some tail) (hw : h₀.SufficesFrom d n id) :
    ((h.detach id tail).cell tail).strong ≠ 1 ∧ h₀.SufficesFrom d n tail ∧
      h₀.Suffices d n ((h.detach id tail).payload id) := by
  have htail : (h.cell tail).strong ≠ 0 := hu.sound.strong_of_payload hp
  refine ⟨?_, ?_, ?_⟩
  · rw [Heap.detach, strong_setPayload, addStrong, cell_modifyCell_self _ (built_of_strong htail)]
    exact fun hone => htail (Nat.succ.inj hone)
  · rcases hu.payload_eq_or id with he | he
    · exact hw.direct (he ▸ hp)
    · rw [he] at hp
      cases hp
  · obtain ⟨m, rfl⟩ := hw.exists_succ
    have hb : id.number < (h.addStrong tail).cells.size := by
      rw [addStrong, size_modifyCell]
      exact built_of_strong (by omega)
    have hn : (h.detach id tail).payload id = .nil := payload_setPayload hb
    rw [hn]
    exact suffices_nil h₀ d m

theorem limited_of_staged (hu : Unwinding h₀ kept h (t.holdings ++ o) ids)
    (hd : ∀ a, (h₀.payload a).depth ≤ d) (ht : t.Suffices h₀ h d n)
    (hs : Staged h₀ h d limit n ts) :
    Limited h₀ (h.perform t).2 d limit ((h.perform t).1 ++ ts) := by
  have hs' := hs.perform t
  match t with
  | .value (.list vs) =>
    obtain ⟨m, rfl⟩ := Heap.Suffices.exists_succ ht
    exact .staged (.task (fun v hv => ht.item hv) (.finish hs'))
  | .value (.map t es) =>
    have he : (h.tree t).entries = es :=
      hu.sound.agrees _ (.inl List.mem_cons_self) (t, es) List.mem_cons_self
    obtain ⟨m, rfl⟩ := Heap.Suffices.exists_succ ht
    by_cases hc : ((h.dropCopy t).tree t).copies = 0
    · rw [perform_map, if_pos hc] at hs' ⊢
      refine .staged (.task (fun v hv => ?_) (.finish hs'))
      rw [he] at hv
      obtain ⟨e, hm, rfl⟩ := List.mem_map.1 hv
      exact ht.entry hm
    · rw [perform_map, if_neg hc] at hs' ⊢
      exact .staged hs'
  | .value (.node id) =>
    obtain ⟨m, rfl⟩ := Heap.Suffices.exists_succ ht
    exact .unlink (fun _ => ht.walk) (.finish hs')
  | .value .nil => exact .staged hs'
  | .value (.bool _) => exact .staged hs'
  | .value (.number _) => exact .staged hs'
  | .value (.text _) => exact .staged hs'
  | .values [] => exact .staged hs'
  | .values (v :: vs) =>
    have hvs : Task.Suffices h₀ h d n (.values vs) :=
      fun w hw => ht w (List.mem_cons_of_mem _ hw)
    exact .staged (.task (ht v List.mem_cons_self) (.task hvs hs'))
  | .walk id =>
    rcases hu.takeTail_of_held List.mem_cons_self with ⟨hn, he⟩ | ⟨tail, h1, hp, he⟩
    · simp only [Heap.perform, he]
      exact hu.limited_handle hd (fun _ => ht) hs hn
    · obtain ⟨htail, hwalk, hid⟩ := hu.detached h1 hp ht
      obtain ⟨m, rfl⟩ := hwalk.exists_succ
      simp only [Heap.perform, he] at hs' ⊢
      exact .doubled htail (.task hid (.task hwalk hs'))
  | .handle id =>
    by_cases hz : ((h.dropStrong id).cell id).strong = 0
    · rw [perform_handle, if_pos hz] at hs' ⊢
      exact .staged (.task ht (.task trivial hs'))
    · rw [perform_handle, if_neg hz] at hs' ⊢
      exact .staged hs'
  | .close id => exact .staged hs'

/-- One task of a release keeps within the limit. -/
theorem limited_perform (hu : Unwinding h₀ kept h (t.holdings ++ Task.holdingsAll ts) ids)
    (hd : ∀ a, (h₀.payload a).depth ≤ d) (hl : Limited h₀ h d limit (t :: ts)) :
    Limited h₀ (h.perform t).2 d limit ((h.perform t).1 ++ ts) := by
  cases hl with
  | staged hs =>
    cases hs with
    | task ht hs => exact hu.limited_of_staged hd ht hs
    | finish hs => exact .staged hs
  | doubled hn hs => exact .unlink (fun h1 => absurd h1 hn) (.finish hs)
  | @unlink n id ts hw hs =>
    have hs' := hs.perform (.unlink id)
    rcases hu.takeTail_of_held List.mem_cons_self with ⟨hn, he⟩ | ⟨tail, h1, hp, he⟩
    · simp only [Heap.perform, he]
      exact hu.limited_handle hd hw hs hn
    · obtain ⟨htail, hwalk, hid⟩ := hu.detached h1 hp (hw h1)
      obtain ⟨m, rfl⟩ := hwalk.exists_succ
      simp only [Heap.perform, he] at hs' ⊢
      exact .doubled htail (.task hwalk (.task hid hs'))
  | @shared n id ts hn hs =>
    have ha : (h.cell id).strong ≠ 0 := hu.strong_ne_zero List.mem_cons_self
    have hz : ((h.dropStrong id).cell id).strong ≠ 0 := by
      rw [strong_dropStrong (built_of_strong ha)]
      omega
    have hs' := hs.perform (.handle id)
    rw [perform_handle, if_neg hz] at hs' ⊢
    exact .staged hs'

end Heap.Unwinding

namespace Execution

open Heap

variable {past : List (Deed × Execution)} {e m m' : Execution} {kept : List Holding} {k : Nat}

/-- A release that began in `h₀` is under way and stays within the limit. -/
structure Descending (h₀ : Heap) (kept : List Holding) (d limit : Nat) (m : Execution) :
    Prop where
  unwinding : Unwinding h₀ kept m.heap (Task.holdingsAll m.tasks) (Task.closingsAll m.tasks)
  limited : Limited h₀ m.heap d limit m.tasks

namespace Descending

variable (hd : ∀ a, (h₀.payload a).depth ≤ d)

include hd

theorem working (hm : Descending h₀ kept d limit m) (hw : Working m m') :
    Descending h₀ kept d limit m' := by
  have hu' := hw.unwinding hm.unwinding fun id ts he => (he ▸ hm.limited).held
  obtain ⟨t, ts, he, rfl⟩ := hw.exists_task
  obtain ⟨hu, hl⟩ := hm
  rw [he] at hu hl
  exact ⟨hu', hu.limited_perform hd hl⟩

theorem works (hm : Descending h₀ kept d limit m) (hw : Works n m m') :
    Descending h₀ kept d limit m' := by
  induction hw with
  | none => exact hm
  | next hw _ ih => exact ih (hm.working hd hw)

end Descending

/-- Letting go of a handle never nests more than `(k + 1) * (d + 1) + 1` releases of values, where
payloads are at most `d` deep and no way from the node passes more than `k` links that are held in
lists or maps. Neither the number of nodes nor that of direct links matters. -/
theorem Run.activations_le (hr : Run past e) (ht : e.tasks = [])
    (hp : e.held.Perm (.strong id :: kept)) (hd : ∀ a, (e.heap.payload a).depth ≤ d)
    (hk : ∀ n b, e.heap.Way n id b → n ≤ k) :
    ∀ j m, Works j ⟨e.heap, kept, e.reading, [.handle id]⟩ m →
      m.activations ≤ (k + 1) * (d + 1) + 1 := by
  intro j m hw
  have hfrom : e.heap.SufficesFrom d ((k + 1) * (d + 1)) id := by
    refine ⟨k, fun n b hway => Nat.lt_succ_of_le (hk n b hway), ?_⟩
    rw [Nat.add_mul]
    omega
  have hs : Staged e.heap e.heap d ((k + 1) * (d + 1) + 1) ((k + 1) * (d + 1) + 1) [.handle id] :=
    .task (hfrom.start (hd id)) .nil
  have hstart : Descending e.heap (kept ++ e.reading.map .strong) d ((k + 1) * (d + 1) + 1)
      ⟨e.heap, kept, e.reading, [.handle id]⟩ :=
    ⟨hr.sound.unwinding_idle (o := [.strong id]) ht hp, .staged hs⟩
  exact (hstart.works hd hw).limited.le

theorem Run.build {h : Heap} {xs : List Holding} {rd : List NodeId} {v : Value}
    (hr : Run past ⟨h, .value v :: xs, rd, []⟩) (model : Model) :
    Run ((.built h.nextNode v none, ⟨h, .value v :: xs, rd, []⟩) :: past)
      ⟨h.build model v none, .strong h.nextNode :: xs, rd, []⟩ := by
  have hopen : ∀ b ∈ (none : Option BudgetId), b.index < h.budgets.size := nofun
  exact hr.step (.build hopen (construct_direct h model v))

/-! ## Links that are held in lists

Each node but the first has a list with a link to the node before it. -/

namespace Tower

/-- What the nodes of a tower look like; number 0 names none of them. -/
def storey : Nat → Cell
  | 0 => .vacant
  | 1 => ⟨.single, 1, 0, 0, .nil, none⟩
  | i + 2 => ⟨.single, 1, 0, 0, .list [.node ⟨i + 1⟩], none⟩

/-- A tower with so many storeys on top of the first. -/
def heap : Nat → Heap
  | 0 => Heap.empty.build .single .nil none
  | n + 1 => (heap n).build .single (.list [.node ⟨n + 1⟩]) none

def now (n : Nat) : Execution := ⟨heap n, [.strong ⟨n + 1⟩], [], []⟩

theorem size_heap (n : Nat) : (heap n).cells.size = n + 2 := by
  induction n with
  | zero => rfl
  | succ n ih => rw [heap, (builds_build ..).size, ih]

theorem nextNode_heap (n : Nat) : (heap n).nextNode = ⟨n + 2⟩ := by
  rw [nextNode, size_heap]

theorem cell_heap {n i : Nat} (hi : i < n + 2) : (heap n).cell ⟨i⟩ = storey i := by
  induction n with
  | zero =>
    match i with
    | 0 => rfl
    | 1 => rfl
  | succ n ih =>
    by_cases he : i = n + 2
    · subst he
      rw [heap, ← nextNode_heap, (builds_build ..).cell, storey]
    · have hne : NodeId.mk i ≠ (heap n).nextNode := by
        rw [nextNode_heap]
        exact fun h => he (congrArg NodeId.number h)
      rw [heap, (builds_build ..).others _ hne]
      exact ih (by omega)

theorem run (n : Nat) : ∃ past, Run past (now n) := by
  induction n with
  | zero =>
    have h1 : Run _ ⟨.empty, [.value .nil], [], []⟩ := Run.start.step (.deal (.scalar rfl))
    exact ⟨_, h1.build .single⟩
  | succ n ih =>
    obtain ⟨past, hr⟩ := ih
    have hlink : Run _ ⟨heap n, [.value (.node ⟨n + 1⟩)], [], []⟩ := hr.step (.deal .link)
    have hlist : Dealing [] (heap n) ([Value.node ⟨n + 1⟩].map .value ++ []) (heap n)
        [.value (.list [.node ⟨n + 1⟩])] := .list
    have hbuild := (hlink.step (.deal hlist)).build .single
    rw [nextNode_heap] at hbuild
    exact ⟨_, hbuild⟩

/-- A node links to the node before it, if to any. -/
theorem payload_heap (n : Nat) (a : NodeId) : (heap n).payload a = .nil ∨
    ∃ i, a = ⟨i + 2⟩ ∧ (heap n).payload a = .list [.node ⟨i + 1⟩] := by
  obtain ⟨j⟩ := a
  by_cases hj : j < n + 2
  · rw [payload, cell_heap hj]
    rcases j with - | - | i
    · exact .inl rfl
    · exact .inl rfl
    · exact .inr ⟨i, rfl, rfl⟩
  · rw [payload, cell_eq_vacant (by rwa [size_heap])]
    exact .inl rfl

theorem depth_le_one (n : Nat) (a : NodeId) : ((heap n).payload a).depth ≤ 1 := by
  rcases payload_heap n a with hp | ⟨i, -, hp⟩
  · rw [hp, Value.depth_nil]
    exact Nat.zero_le 1
  · rw [hp]
    exact Nat.le_refl 1

theorem number_of_names {n : Nat} {a b : NodeId} (hn : ((heap n).payload a).Names b) :
    0 < b.number ∧ b.number < a.number := by
  rcases payload_heap n a with hp | ⟨i, rfl, hp⟩
  · rw [hp] at hn
    cases hn
  · rw [hp] at hn
    cases hn with
    | item hm hn =>
      rw [List.mem_singleton.1 hm] at hn
      cases hn
      exact ⟨Nat.succ_pos i, Nat.lt_succ_self _⟩

/-- Links lead down, so they never come back. -/
theorem acyclic (n : Nat) (a : NodeId) : ¬ Relation.TransGen (heap n).Links a a := by
  have hlt {b c : NodeId} (hl : Relation.TransGen (heap n).Links b c) : c.number < b.number := by
    induction hl with
    | single hl => exact (number_of_names hl.2).2
    | tail _ hl ih => exact (number_of_names hl.2).2.trans ih
  exact fun hl => Nat.lt_irrefl _ (hlt hl)

/-- A way passes no more links than there are storeys below. -/
theorem way_le {n j : Nat} {a b : NodeId} (hw : (heap n).Way j a b) : j ≤ a.number - 1 := by
  induction hw with
  | here => exact Nat.zero_le _
  | direct hl =>
    rcases payload_heap n _ with hp | ⟨_, -, hp⟩
    · rw [hp] at hl
      cases hl
    · rw [hp] at hl
      cases hl
  | inner _ hl _ ih =>
    obtain ⟨hpos, hlt⟩ := number_of_names hl
    omega

/-- In the tower each storey is let go of inside the release of the list on the storey above, with
two activations more. -/
theorem exists_nested (i : Nat) (h : Heap) (xs : List Holding) (rd : List NodeId)
    (ts : List Task) (hb : i + 1 < h.cells.size) (hc : ∀ j ≤ i + 1, h.cell ⟨j⟩ = storey j) :
    ∃ k m, Works k ⟨h, xs, rd, .handle ⟨i + 1⟩ :: ts⟩ m ∧
      m.activations = 2 * i + ts.countP Task.isFinish := by
  induction i generalizing h ts with
  | zero =>
    refine ⟨0, _, .none, ?_⟩
    rw [activations, List.countP_cons_of_neg Bool.false_ne_true]
    omega
  | succ i ih =>
    have hone := hc (i + 2) (Nat.le_refl _)
    let h' := (h.dropStrong ⟨i + 2⟩).setPayload ⟨i + 2⟩ .nil
    have hfirst : h.perform (.handle ⟨i + 2⟩) =
        ([.value (.list [.node ⟨i + 1⟩]), .close ⟨i + 2⟩], h') := by
      rw [perform_handle, strong_dropStrong hb, hone]
      rfl
    have hbelow : ∀ j ≤ i + 1, h'.cell ⟨j⟩ = storey j := by
      intro j hj
      have hn : NodeId.mk (i + 2) ≠ ⟨j⟩ := fun he => by
        cases he
        omega
      rw [← hc j (by omega)]
      exact (cell_modifyCell_of_ne _ hn).trans (cell_modifyCell_of_ne _ hn)
    have hsize : h'.cells.size = h.cells.size := (size_modifyCell _).trans (size_modifyCell _)
    -- The storey below has one handle, but the walk does not look into its list.
    have hstop : h'.perform (.unlink ⟨i + 1⟩) = ([], h') := by
      have hp : ((storey (i + 1)).payload).node? = none := by cases i <;> rfl
      have ht : h'.uniqueTail? ⟨i + 1⟩ = none := by
        rw [uniqueTail?, hbelow (i + 1) (Nat.le_refl _), hp, ite_self]
      simp only [Heap.perform, Heap.takeTail, ht]
    obtain ⟨k, m, hw, hm⟩ := ih h' (.finish :: .values [] :: .finish :: .close ⟨i + 2⟩ :: ts)
      (by omega) hbelow
    refine ⟨k + 5, m, ?_, ?_⟩
    · exact .next (.of_perform hfirst) (.next (.of_perform rfl) (.next (.of_perform rfl)
        (.next (.of_perform rfl) (.next (.of_perform hstop) hw))))
    · rw [hm]
      simp only [List.countP_cons, Task.isFinish, if_true, Bool.false_eq_true, if_false]
      omega

end Tower

/-- Where lists may hold links, no number of activations is enough for all heaps, even where
payloads are one level deep and nothing goes round in a circle. -/
theorem exists_activations_gt : ¬ ∀ d, ∃ limit, ∀ past e id kept, Run past e → e.tasks = [] →
    e.held.Perm (.strong id :: kept) → (∀ a, ¬ Relation.TransGen e.heap.Links a a) →
    (∀ a, (e.heap.payload a).depth ≤ d) →
    ∀ j m, Works j ⟨e.heap, kept, e.reading, [.handle id]⟩ m → m.activations ≤ limit := by
  intro hall
  obtain ⟨limit, hlimit⟩ := hall 1
  let n := limit + 1
  obtain ⟨past, hr⟩ := Tower.run n
  obtain ⟨j, m, hw, hm⟩ := Tower.exists_nested n (Tower.heap n) [] [] []
    (by rw [Tower.size_heap]; omega) fun i hi => Tower.cell_heap (by omega)
  have hle := hlimit past (Tower.now n) ⟨n + 1⟩ [] hr rfl (.refl _) (Tower.acyclic n)
    (Tower.depth_le_one n) j m hw
  omega

/-- For a tower of three storeys seven activations are enough, and at one moment there are four. -/
theorem activations_le_tower : ∃ past j m, Run past (Tower.now 2) ∧ (Tower.now 2).tasks = [] ∧
    (Tower.now 2).held.Perm (.strong ⟨3⟩ :: []) ∧
    (∀ a, ((Tower.heap 2).payload a).depth ≤ 1) ∧
    (∀ n b, (Tower.heap 2).Way n ⟨3⟩ b → n ≤ 2) ∧
    Works j ⟨Tower.heap 2, [], [], [.handle ⟨3⟩]⟩ m ∧ m.activations = 4 ∧ m.activations ≤ 7 := by
  obtain ⟨past, hr⟩ := Tower.run 2
  obtain ⟨j, m, hw, hm⟩ := Tower.exists_nested 2 (Tower.heap 2) [] [] [] (by decide)
    fun i hi => Tower.cell_heap (by omega)
  have hway : ∀ n b, (Tower.heap 2).Way n ⟨3⟩ b → n ≤ 2 := fun _ _ => Tower.way_le
  exact ⟨past, j, m, hr, rfl, .refl _, Tower.depth_le_one 2, hway, hw, hm,
    Run.activations_le hr rfl (.refl _) (Tower.depth_le_one 2) hway j m hw⟩

end Execution
end GraphStack
