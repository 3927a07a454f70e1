import GraphStack.Proofs.Heap.Unwinding

/-!
# Releases in any order

What is held is let go of one thing after the other, and a list or a map that goes hands its items
on in an order of its own. `Heap.Ends` says where tasks can end when every such order is allowed,
`Heap.Releases` where letting go of several things can end. Whatever the orders are, only doomed
things are cleared and in the end all of them, so the end does not depend on the orders.
-/

namespace GraphStack.Heap

/-- Where tasks can end, if the items of each list and the entries of each map go in any order. -/
inductive Ends : Heap → List Task → Heap → Prop
  | done {h : Heap} : Ends h [] h
  | task {h h' : Heap} {t : Task} {ts : List Task}
      (he : Ends (h.perform t).2 ((h.perform t).1 ++ ts) h') : Ends h (t :: ts) h'
  | reorder {h h' : Heap} {vs ws : List Value} {ts : List Task} (hp : vs.Perm ws)
      (he : Ends h (.values ws :: ts) h') : Ends h (.values vs :: ts) h'

/-- Where the release of one thing can end. -/
inductive LetsGo : Heap → Holding → Heap → Prop
  | strong {h h' : Heap} {id : NodeId} (he : Ends h [.handle id] h') : LetsGo h (.strong id) h'
  | weak {h : Heap} {id : NodeId} : LetsGo h (.weak id) (h.dropWeak id)
  | value {h h' : Heap} {v : Value} (he : Ends h [.value v] h') : LetsGo h (.value v) h'

/-- Where the release of several things can end, from the first to the last. -/
inductive Releases : Heap → List Holding → Heap → Prop
  | nil {h : Heap} : Releases h [] h
  | cons {h h' h'' : Heap} {x : Holding} {xs : List Holding} (hx : LetsGo h x h')
      (hr : Releases h' xs h'') : Releases h (x :: xs) h''

variable {h₀ h h' h₁ h₂ : Heap} {kept o : List Holding} {ids : List NodeId} {ts : List Task}
  {x : Holding} {xs ys : List Holding}

/-- The order in which items stand is one of the orders. -/
theorem Ends.run (h : Heap) (ts : List Task) : Ends h ts (h.run ts) := by
  induction h, ts using run_induction with
  | nil h =>
    rw [run_nil]
    exact .done
  | cons h t rest ih =>
    rw [run_cons]
    exact .task ih

theorem LetsGo.releaseHolding (h : Heap) (x : Holding) : LetsGo h x (h.releaseHolding x) := by
  cases x with
  | strong id => exact .strong (.run h _)
  | weak id => exact .weak
  | value v => exact .value (.run h _)

theorem Releases.foldl (h : Heap) (xs : List Holding) :
    Releases h xs (xs.foldl Heap.releaseHolding h) := by
  induction xs generalizing h with
  | nil => exact .nil
  | cons x xs ih => exact .cons (.releaseHolding h x) (ih _)

/-! ## One end for all orders -/

theorem Ends.unwinding (he : Ends h ts h')
    (hu : Unwinding h₀ kept h (Task.holdingsAll ts ++ o) (Task.closingsAll ts ++ ids))
    (hb : Task.Backed ts) : Unwinding h₀ kept h' o ids := by
  induction he with
  | done => exact hu
  | @task h h' t ts he ih =>
    refine ih ?_ (backed_perform hb)
    rw [Task.holdingsAll_append, Task.closingsAll_append, List.append_assoc, List.append_assoc]
    rw [Task.holdingsAll_cons, Task.closingsAll_cons, List.append_assoc, List.append_assoc] at hu
    refine hu.perform ?_
    rintro id rfl
    rw [Holding.handlesAll_append]
    exact List.mem_append_left _ hb.held
  | @reorder h h' vs ws ts hp he ih =>
    refine ih (hu.regroup ?_) hb
    have hv : (vs.map Holding.value).Perm (ws.map .value) := hp.map _
    exact hu.sound.perm (((hv.append_right _).append_right _).append_right _)

/-- Tasks that are worked off leave nothing to do. -/
theorem Unwinding.run
    (hu : Unwinding h₀ kept h (Task.holdingsAll ts) (Task.closingsAll ts))
    (hb : Task.Backed ts) : Unwinding h₀ kept (h.run ts) [] [] := by
  refine (Ends.run h ts).unwinding ?_ hb
  rw [List.append_nil, List.append_nil]
  exact hu

theorem LetsGo.unwinding (hl : LetsGo h x h') (hu : Unwinding h₀ kept h (x :: o) ids) :
    Unwinding h₀ kept h' o ids := by
  cases hl with
  | strong he => exact he.unwinding hu trivial
  | weak => exact hu.dropWeak
  | value he => exact he.unwinding hu trivial

theorem Releases.unwinding (hr : Releases h xs h') (hu : Unwinding h₀ kept h (xs ++ o) ids) :
    Unwinding h₀ kept h' o ids := by
  induction hr with
  | nil => exact hu
  | cons hl _ ih => exact ih (hl.unwinding hu)

end GraphStack.Heap
