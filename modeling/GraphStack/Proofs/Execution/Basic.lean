import GraphStack.Proofs.Heap.Decay

/-!
# Executions

An execution is a heap with what its caller holds, the scopes that are open and the tasks that a
release still has to do. `Execution.Step` is one thing that happens: a task is done, or, when no
task is left, the caller does something. A step tells what it did to a node as a `Deed`, and
`Execution.Run` collects deeds and moments, the latest first.

What a caller does is made of few steps. A copy of a payload is a `copy`; a payload is replaced by
a `write` that hands out the old one, which a caller who sets a payload then drops; to take a
payload is to write nil. A value is put together from held parts, and a refused call drops what it
was given. A scope that reads a payload keeps its handle until it ends.
-/

namespace GraphStack

/-- What can be looked at from what is held: held values, payloads of nodes in reach, and parts. -/
inductive Heap.Visible (h : Heap) (outside : List Holding) : Value → Prop
  | value {v : Value} (hv : .value v ∈ outside) : Visible h outside v
  | handle {id : NodeId} (hv : .strong id ∈ outside) : Visible h outside (.node id)
  | payload {id : NodeId} (hv : Visible h outside (.node id)) : Visible h outside (h.payload id)
  | item {vs : List Value} {v : Value} (hv : Visible h outside (.list vs)) (hm : v ∈ vs) :
      Visible h outside v
  | entry {tree : MapId} {es : List (String × Value)} {e : String × Value}
      (hv : Visible h outside (.map tree es)) (hm : e ∈ es) : Visible h outside e.2

/-- What a caller does with handles and values alone, while some scopes read. -/
inductive Dealing (reading : List NodeId) :
    Heap → List Holding → Heap → List Holding → Prop
  | arrange {h : Heap} {xs ys : List Holding} (hp : xs.Perm ys) : Dealing reading h xs h ys
  | scalar {h : Heap} {xs : List Holding} {v : Value} (hv : v.handles = []) :
      Dealing reading h xs h (.value v :: xs)
  | list {h : Heap} {xs : List Holding} {vs : List Value} :
      Dealing reading h (vs.map .value ++ xs) h (.value (.list vs) :: xs)
  | unlist {h : Heap} {xs : List Holding} {vs : List Value} :
      Dealing reading h (.value (.list vs) :: xs) h (vs.map .value ++ xs)
  | map {h : Heap} {xs : List Holding} {es : List (String × Value)} :
      Dealing reading h ((es.map (·.2)).map .value ++ xs)
        (h.plant es) (.value (.map h.nextTree es) :: xs)
  | link {h : Heap} {xs : List Holding} {id : NodeId} :
      Dealing reading h (.strong id :: xs) h (.value (.node id) :: xs)
  | unlink {h : Heap} {xs : List Holding} {id : NodeId} :
      Dealing reading h (.value (.node id) :: xs) h (.strong id :: xs)
  | clone {h : Heap} {xs : List Holding} {x : Holding} (hx : x ∈ xs) :
      Dealing reading h xs (h.retainHolding x) (x :: xs)
  | copy {h : Heap} {xs : List Holding} {v : Value}
      (hv : h.Visible (xs ++ reading.map .strong) v) :
      Dealing reading h xs (h.retain v) (.value v :: xs)
  | grasp {h : Heap} {xs : List Holding} {id : NodeId}
      (hv : h.Visible (xs ++ reading.map .strong) (.node id)) :
      Dealing reading h xs (h.addStrong id) (.strong id :: xs)
  | downgrade {h : Heap} {xs : List Holding} {id : NodeId}
      (hv : h.Visible (xs ++ reading.map .strong) (.node id)) :
      Dealing reading h xs (h.addWeak id) (.weak id :: xs)
  | upgrade {h h' : Heap} {xs : List Holding} {id : NodeId} (hx : .weak id ∈ xs)
      (hu : h.upgrade? id = some h') : Dealing reading h xs h' (.strong id :: xs)
  | dropWeak {h : Heap} {xs : List Holding} {id : NodeId} :
      Dealing reading h (.weak id :: xs) (h.dropWeak id) xs

structure Execution where
  heap : Heap
  held : List Holding
  /-- The nodes that scopes read, the innermost scope first. -/
  reading : List NodeId
  tasks : List Task

namespace Execution

/-- What a step did to a node or asked of a budget. -/
inductive Deed
  | built (id : NodeId) (payload : Value) (through : Option BudgetId)
  | refused (through : BudgetId)
  | wrote (id : NodeId) (payload : Value)
  | other

def empty : Execution := ⟨.empty, [], [], []⟩

/-- What the caller holds, the handles that scopes keep included. -/
def outside (e : Execution) : List Holding := e.held ++ e.reading.map .strong

def owned (e : Execution) : List Holding := Task.holdingsAll e.tasks ++ e.outside

inductive Step : Execution → Deed → Execution → Prop
  | work {h : Heap} {xs : List Holding} {rd : List NodeId} {t : Task} {ts : List Task} :
      Step ⟨h, xs, rd, t :: ts⟩ .other ⟨(h.perform t).2, xs, rd, (h.perform t).1 ++ ts⟩
  | deal {h h' : Heap} {xs xs' : List Holding} {rd : List NodeId}
      (hd : Dealing rd h xs h' xs') : Step ⟨h, xs, rd, []⟩ .other ⟨h', xs', rd, []⟩
  | dropHandle {h : Heap} {xs : List Holding} {rd : List NodeId} {id : NodeId} :
      Step ⟨h, .strong id :: xs, rd, []⟩ .other ⟨h, xs, rd, [.handle id]⟩
  | dropValue {h : Heap} {xs : List Holding} {rd : List NodeId} {v : Value} :
      Step ⟨h, .value v :: xs, rd, []⟩ .other ⟨h, xs, rd, [.value v]⟩
  | write {h h' : Heap} {xs : List Holding} {rd : List NodeId} {id : NodeId} {v old : Value}
      (hv : h.Visible (xs ++ rd.map .strong) (.node id))
      (hw : h.replace? id v = some (old, h')) :
      Step ⟨h, .value v :: xs, rd, []⟩ (.wrote id v) ⟨h', .value old :: xs, rd, []⟩
  | build {h h' : Heap} {xs : List Holding} {rd : List NodeId} {id : NodeId} {v : Value}
      {model : Model} {through : Option BudgetId}
      (hb : ∀ b ∈ through, b.index < h.budgets.size)
      (hc : h.construct model v through = (.ok id, h')) :
      Step ⟨h, .value v :: xs, rd, []⟩ (.built id v through) ⟨h', .strong id :: xs, rd, []⟩
  | refuse {h : Heap} {xs : List Holding} {rd : List NodeId} {v : Value} {b : BudgetId}
      {limit : Nat} (hr : Heap.reachedLimit? (h.budget b) = some limit) :
      Step ⟨h, .value v :: xs, rd, []⟩ (.refused b)
        ⟨h.log (.exhausted (h.budget b).label (h.budget b).live limit), xs, rd, [.value v]⟩
  | openBudget {h : Heap} {xs : List Holding} {rd : List NodeId} {label : String}
      {limit : Option Nat} (hl : limit ≠ some 0) :
      Step ⟨h, xs, rd, []⟩ .other ⟨h.openBudget label limit, xs, rd, []⟩
  | enter {h : Heap} {xs : List Holding} {rd : List NodeId} {id : NodeId} :
      Step ⟨h, .strong id :: xs, rd, []⟩ .other ⟨h.enter id, xs, id :: rd, []⟩
  | leave {h : Heap} {xs : List Holding} {rd : List NodeId} {id : NodeId} :
      Step ⟨h, xs, id :: rd, []⟩ .other ⟨h.leave id, .strong id :: xs, rd, []⟩

/-- The deeds of a run so far, each with the moment before it, and the present moment. -/
inductive Run : List (Deed × Execution) → Execution → Prop
  | start : Run [] empty
  | step {past : List (Deed × Execution)} {e e' : Execution} {d : Deed} (hr : Run past e)
      (hs : Step e d e') : Run ((d, e) :: past) e'

def moments (past : List (Deed × Execution)) (e : Execution) : List Execution :=
  e :: past.map (·.2)

/-- A release that has begun can be worked off, and nothing is built or written on the way. -/
theorem Run.finish {past : List (Deed × Execution)} {h : Heap} {xs : List Holding}
    {rd : List NodeId} {ts : List Task} (hr : Run past ⟨h, xs, rd, ts⟩) :
    ∃ later, (∀ p ∈ later, p.1 = .other) ∧ Run (later ++ past) ⟨h.run ts, xs, rd, []⟩ := by
  induction h, ts using Heap.run_induction generalizing past with
  | nil h =>
    rw [Heap.run_nil]
    exact ⟨[], fun p hp => (List.not_mem_nil hp).elim, hr⟩
  | cons h t rest ih =>
    obtain ⟨later, ho, hr'⟩ := ih (hr.step .work)
    rw [Heap.run_cons]
    refine ⟨later ++ [(.other, ⟨h, xs, rd, t :: rest⟩)], ?_, ?_⟩
    · intro p hp
      rcases List.mem_append.1 hp with hp | hp
      · exact ho p hp
      · rw [List.mem_singleton.1 hp]
    · rw [List.append_assoc]
      exact hr'

/-! ## A node that links to itself

A budget of one node is opened, the node is built through it, and a link to the node becomes its
own payload. -/

namespace SelfLink

def opened : Heap := Heap.empty.openBudget "frames" (some 1)

def built : Heap := (opened.lend ⟨0⟩).build .single .nil (some ⟨0⟩)

def linked : Heap := (built.addStrong ⟨1⟩).setPayload ⟨1⟩ (.node ⟨1⟩)

def past : List (Deed × Execution) :=
  [(.other, ⟨linked, [.strong ⟨1⟩], [], [.value .nil]⟩),
    (.other, ⟨linked, [.value .nil, .strong ⟨1⟩], [], []⟩),
    (.wrote ⟨1⟩ (.node ⟨1⟩),
      ⟨built.addStrong ⟨1⟩, [.value (.node ⟨1⟩), .strong ⟨1⟩], [], []⟩),
    (.other, ⟨built.addStrong ⟨1⟩, [.strong ⟨1⟩, .strong ⟨1⟩], [], []⟩),
    (.other, ⟨built, [.strong ⟨1⟩], [], []⟩),
    (.built ⟨1⟩ .nil (some ⟨0⟩), ⟨opened, [.value .nil], [], []⟩),
    (.other, ⟨opened, [], [], []⟩),
    (.other, empty)]

def now : Execution := ⟨linked, [.strong ⟨1⟩], [], []⟩

theorem run_built : Run (past.drop 5) ⟨built, [.strong ⟨1⟩], [], []⟩ := by
  have h1 : Run _ ⟨opened, [], [], []⟩ := .step .start (.openBudget (by decide))
  have h2 : Run _ ⟨opened, [.value .nil], [], []⟩ := h1.step (.deal (.scalar rfl))
  have hopen : ∀ b ∈ some (BudgetId.mk 0), b.index < opened.budgets.size := by
    rintro b ⟨⟩
    decide
  have hbuild : opened.construct .single .nil (some ⟨0⟩) = (.ok ⟨1⟩, built) := rfl
  exact h2.step (.build hopen hbuild)

theorem run : Run past now := by
  have h4 : Run _ ⟨built.addStrong ⟨1⟩, [.strong ⟨1⟩, .strong ⟨1⟩], [], []⟩ :=
    run_built.step (.deal (.clone List.mem_cons_self))
  have h5 := h4.step (.deal .link)
  have h6 : Run _ ⟨linked, [.value .nil, .strong ⟨1⟩], [], []⟩ :=
    h5.step (.write (.handle List.mem_cons_self) rfl)
  exact (h6.step .dropValue).step .work

end SelfLink
end Execution

/-! ## What a construction does -/

namespace Heap

variable {h h' : Heap} {model : Model} {v : Value} {id : NodeId}

theorem construct_direct (h : Heap) (model : Model) (v : Value) :
    h.construct model v none = (.ok h.nextNode, h.build model v none) := rfl

theorem construct_through (h : Heap) (model : Model) (v : Value) (b : BudgetId) :
    h.construct model v (some b) =
      match reachedLimit? (h.budget b) with
      | some limit => (.error ⟨(h.budget b).live, limit⟩, h.refuse (h.budget b) limit v)
      | none => (.ok (h.lend b).nextNode, (h.lend b).build model v (some b)) := rfl

/-- A construction that succeeds builds the next node, through a budget that has room. -/
theorem construct_eq_ok {through : Option BudgetId}
    (hc : h.construct model v through = (.ok id, h')) :
    id = h.nextNode ∧ match through with
      | none => h' = h.build model v none
      | some b => reachedLimit? (h.budget b) = none ∧ h' = (h.lend b).build model v (some b) := by
  cases through with
  | none =>
    rw [construct_direct] at hc
    cases hc
    exact ⟨rfl, rfl⟩
  | some b =>
    rw [construct_through] at hc
    split at hc
    · cases hc
    · next hr =>
      cases hc
      exact ⟨rfl, hr, rfl⟩

structure Builds (h : Heap) (model : Model) (v : Value) (through : Option BudgetId)
    (h' : Heap) : Prop where
  cell : h'.cell h.nextNode = ⟨model, 1, 0, 0, v, through⟩
  others : ∀ id, id ≠ h.nextNode → h'.cell id = h.cell id
  size : h'.cells.size = h.cells.size + 1
  trees : h'.trees = h.trees
  refusals : h'.refusals = h.refusals

theorem builds_build (h : Heap) (model : Model) (v : Value) (lease : Option BudgetId) :
    h.Builds model v lease (h.build model v lease) where
  cell := by rw [cell_build, if_pos rfl]
  others id hn := by rw [cell_build, if_neg hn]
  size := Array.size_push ..
  trees := rfl
  refusals := rfl

theorem builds_of_construct {through : Option BudgetId}
    (hc : h.construct model v through = (.ok id, h')) : h.Builds model v through h' := by
  obtain ⟨-, hh⟩ := construct_eq_ok hc
  cases through with
  | none =>
    rw [hh]
    exact builds_build ..
  | some b =>
    obtain ⟨-, rfl⟩ := hh
    obtain ⟨hcell, hothers, hsize, htrees, hrefusals⟩ := builds_build (h.lend b) model v (some b)
    exact ⟨hcell, hothers, hsize, htrees, hrefusals⟩

theorem Builds.readers {through : Option BudgetId} (hb : h.Builds model v through h')
    (id : NodeId) : (h'.cell id).readers = (h.cell id).readers := by
  by_cases he : id = h.nextNode
  · have hv : h.cell h.nextNode = .vacant := cell_eq_vacant (Nat.lt_irrefl _)
    rw [he, hb.cell, hv]
    rfl
  · rw [hb.others id he]

/-- A new node is alive, so no lease is pending that was not before. -/
theorem Builds.closing {through : Option BudgetId} (hb : h.Builds model v through h')
    (hc : h.Closing []) : h'.Closing [] := by
  refine ⟨.nil, fun _ hm => (List.not_mem_nil hm).elim, ?_⟩
  intro id hz hn
  by_cases he : id = h.nextNode
  · rw [he, hb.cell] at hz
    cases hz
  · rw [hb.others id he] at hz hn
    exact hc.pending id hz hn

/-- A construction that is refused asked a budget without room, and released the payload. -/
theorem construct_eq_error {through : Option BudgetId} {r : Refusal}
    (hc : h.construct model v through = (.error r, h')) :
    ∃ b limit, through = some b ∧ reachedLimit? (h.budget b) = some limit ∧
      r = ⟨(h.budget b).live, limit⟩ ∧ h' = h.refuse (h.budget b) limit v := by
  cases through with
  | none => cases hc
  | some b =>
    rw [construct_through] at hc
    split at hc
    · next limit hr =>
      cases hc
      exact ⟨b, limit, rfl, hr, rfl, rfl⟩
    · cases hc

theorem replace?_eq_some {old : Value} (hw : h.replace? id v = some (old, h')) :
    (h.cell id).readers = 0 ∧ old = (h.cell id).payload ∧ h' = h.setPayload id v := by
  unfold replace? at hw
  split at hw
  · next hr =>
    cases hw
    exact ⟨hr, rfl, rfl⟩
  · cases hw

theorem upgrade?_eq_some (hu : h.upgrade? id = some h') :
    (h.cell id).strong ≠ 0 ∧ h' = h.addStrong id := by
  unfold upgrade? at hu
  split at hu
  · next ha =>
    cases hu
    exact ⟨by simpa [Cell.isAlive] using ha, rfl⟩
  · cases hu

end Heap
end GraphStack
