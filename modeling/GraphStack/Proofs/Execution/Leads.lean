import GraphStack.Proofs.Execution.Sound

/-!
# From one moment to a later one

`Execution.Leads` is any number of steps. The lemmas here are the moves that a caller makes as a
whole: to release what it holds and wait for the end, to build a node or be refused, to write a
payload or be refused.
-/

namespace GraphStack.Execution

/-- One moment leads to another in any number of steps. -/
def Leads : Execution → Execution → Prop := Relation.ReflTransGen fun e e' => ∃ d, Step e d e'

variable {e e' : Execution} {past : List (Deed × Execution)}

theorem Run.leads (hr : Run past e) (hl : Leads e e') :
    ∃ later, Run (later ++ past) e' := by
  induction hl with
  | refl => exact ⟨[], hr⟩
  | tail _ hd ih =>
    obtain ⟨later, hr'⟩ := ih
    obtain ⟨d, hd⟩ := hd
    exact ⟨(d, _) :: later, hr'.step hd⟩

namespace Leads

theorem refl (e : Execution) : Leads e e := Relation.ReflTransGen.refl

theorem trans {e'' : Execution} (hl : Leads e e') (hl' : Leads e' e'') : Leads e e'' :=
  Relation.ReflTransGen.trans hl hl'

theorem step {d : Deed} (hd : Step e d e') : Leads e e' := Relation.ReflTransGen.single ⟨d, hd⟩

variable {h h' : Heap} {xs ys : List Holding} {rd : List NodeId} {ts : List Task} {id : NodeId}
  {v : Value}

theorem deal (hd : Dealing rd h xs h' ys) : Leads ⟨h, xs, rd, []⟩ ⟨h', ys, rd, []⟩ :=
  step (.deal hd)

theorem arrange (hp : xs.Perm ys) : Leads ⟨h, xs, rd, []⟩ ⟨h, ys, rd, []⟩ := deal (.arrange hp)

theorem run (h : Heap) (ts : List Task) : Leads ⟨h, xs, rd, ts⟩ ⟨h.run ts, xs, rd, []⟩ := by
  induction h, ts using Heap.run_induction with
  | nil h =>
    rw [Heap.run_nil]
    exact refl _
  | cons h t rest ih =>
    rw [Heap.run_cons]
    exact (step .work).trans ih

/-! ## Releases -/

theorem release : Leads ⟨h, .value v :: xs, rd, []⟩ ⟨h.release v, xs, rd, []⟩ :=
  (step .dropValue).trans (run h _)

theorem releaseHandle : Leads ⟨h, .strong id :: xs, rd, []⟩ ⟨h.releaseHandle id, xs, rd, []⟩ :=
  (step .dropHandle).trans (run h _)

theorem releaseHolding (x : Holding) :
    Leads ⟨h, x :: xs, rd, []⟩ ⟨h.releaseHolding x, xs, rd, []⟩ := by
  cases x with
  | strong id => exact releaseHandle
  | weak id => exact deal .dropWeak
  | value v => exact release

/-- What is held goes, one thing after another. -/
theorem releaseEach (h : Heap) (xs : List Holding) (rd : List NodeId) :
    Leads ⟨h, xs, rd, []⟩ ⟨xs.foldl Heap.releaseHolding h, [], rd, []⟩ := by
  induction xs generalizing h with
  | nil => exact refl _
  | cons x xs ih => exact (releaseHolding x).trans (ih _)

theorem releaseAll (vs : List Value) :
    Leads ⟨h, vs.map .value ++ xs, rd, []⟩ ⟨h.releaseAll vs, xs, rd, []⟩ := by
  induction vs generalizing h with
  | nil =>
    rw [Heap.releaseAll_nil]
    exact refl _
  | cons v vs ih =>
    rw [Heap.releaseAll_cons]
    exact release.trans ih

/-! ## Constructions -/

variable {model : Model} {through : Option BudgetId}

theorem construct_ok (hb : ∀ b ∈ through, b.index < h.budgets.size)
    (hc : h.construct model v through = (.ok id, h')) :
    Leads ⟨h, .value v :: xs, rd, []⟩ ⟨h', .strong id :: xs, rd, []⟩ := step (.build hb hc)

/-- A refused payload has been released when the construction returns. -/
theorem construct_error {r : Refusal} (hc : h.construct model v through = (.error r, h')) :
    Leads ⟨h, .value v :: xs, rd, []⟩ ⟨h', xs, rd, []⟩ := by
  obtain ⟨b, limit, -, hr, -, rfl⟩ := Heap.construct_eq_error hc
  exact (step (.refuse hr)).trans (run _ _)

/-! ## Payloads -/

/-- The payload of a node, copied for the caller. -/
theorem copy (hv : h.Visible (xs ++ rd.map .strong) (.node id)) :
    Leads ⟨h, xs, rd, []⟩ ⟨h.retain (h.payload id), .value (h.payload id) :: xs, rd, []⟩ :=
  deal (.copy (.payload hv))

theorem write {old : Value} (hv : h.Visible (xs ++ rd.map .strong) (.node id))
    (hw : h.replace? id v = some (old, h')) :
    Leads ⟨h, .value v :: xs, rd, []⟩ ⟨h', .value old :: xs, rd, []⟩ := step (.write hv hw)

end Leads

/-! ## Budgets stay open -/

theorem Step.budgets_le {d : Deed} (hd : Step e d e') :
    e.heap.budgets.size ≤ e'.heap.budgets.size := by
  cases hd with
  | work => exact (Heap.size_perform _ _).2.2.ge
  | deal hd => rw [hd.records.budgets]
  | write hv hw =>
    obtain ⟨-, rfl, rfl⟩ := Heap.replace?_eq_some hw
    exact le_refl _
  | @build h h' xs rd id v model through hb hc =>
    cases through with
    | none =>
      cases hc
      exact le_refl _
    | some b =>
      obtain ⟨-, -, hh⟩ := Heap.construct_eq_ok hc
      subst hh
      exact Array.size_modify.ge
  | openBudget => exact (Array.size_push ..).ge.trans' (Nat.le_succ _)
  | _ => exact le_refl _

theorem Leads.budgets_le (hl : Leads e e') : e.heap.budgets.size ≤ e'.heap.budgets.size := by
  induction hl with
  | refl => exact le_refl _
  | tail _ hd ih =>
    obtain ⟨d, hd⟩ := hd
    exact ih.trans hd.budgets_le

end GraphStack.Execution
